import TensorKernel.Proofs.Formula.Folding

/-!
Products and sums do not depend on how they are bracketed: both fold into one node over all operands
in their order, and the one factor that a product may have ends up outside, wherever it was applied.

* `Bracketing`: a way to put operands together two at a time, with factors in between;
* `fold_gathered`: what folding makes of two groups of operands;
* `build_times`, `build_plus`: what a bracketing gives;
* `Bracketing.build_eq`: the product and the sum of two operands or more.
-/

namespace TensorKernel.Node

/-- A way to put operands together, two at a time. Any part may be scaled. -/
inductive Bracketing where
  | operand (n : Node)
  | join (left right : Bracketing)
  | scaled (part : Bracketing) (factor : Factor)

namespace Bracketing

def operands : Bracketing → List Node
  | operand n => [n]
  | join left right => left.operands ++ right.operands
  | scaled part _ => part.operands

def factors : Bracketing → List Factor
  | operand _ => []
  | join left right => left.factors ++ right.factors
  | scaled part factor => part.factors ++ [factor]

def build (op : Node → Operand → Result Node) : Bracketing → Result Node
  | operand n => pure n
  | join left right => do op (← left.build op) (.node (← right.build op))
  | scaled part factor => do (← part.build op).times (.factor factor)

theorem operands_ne_nil (b : Bracketing) : b.operands ≠ [] := by
  induction b with
  | operand n => exact List.cons_ne_nil n []
  | join left right hl _ =>
    intro none
    exact hl (List.append_eq_nil_iff.mp none).1
  | scaled _ _ ih => exact ih

end Bracketing

/-! ### Groups of operands -/

theorem isScale_fold (left right : Node) : (fold .einsum left right).kind.isScale = false := by
  rw [kind_fold]
  rfl

/-- A group of operands under an associative kind; a single one stands for itself. -/
def gathered (kind : Kind) : List Node → Node
  | [n] => n
  | ns => ofKind kind ns none

section
variable {kind : Kind} {xs ys : List Node}

theorem gathered_of_ne (h : ∀ x, xs ≠ [x]) : gathered kind xs = ofKind kind xs none := by
  unfold gathered
  split
  · next n => exact absurd rfl (h n)
  · rfl

theorem gathered_append (hx : xs ≠ []) (hy : ys ≠ []) :
    gathered kind (xs ++ ys) = ofKind kind (xs ++ ys) none := by
  apply gathered_of_ne
  intro n single
  have count := congrArg List.length single
  have left := List.length_pos_iff.mpr hx
  have right := List.length_pos_iff.mpr hy
  rw [List.length_append, List.length_singleton] at count
  omega

theorem flattened_gathered (other : ∀ x ∈ xs, x.kind ≠ kind) :
    (gathered kind xs).flattened kind = xs := by
  by_cases single : ∃ n, xs = [n]
  · obtain ⟨n, rfl⟩ := single
    exact if_neg (other n (List.mem_singleton.mpr rfl))
  · rw [gathered_of_ne fun n h => single ⟨n, h⟩]
    exact if_pos rfl

/-- A group of the kind that folds is a node without indices and annotations. -/
theorem eq_of_gathered_kind (other : ∀ x ∈ xs, x.kind ≠ kind)
    (same : (gathered kind xs).kind = kind) : gathered kind xs = ofKind kind xs none := by
  apply gathered_of_ne
  rintro n rfl
  exact other n (List.mem_singleton.mpr rfl) same

/-- Folding puts the operands of two groups under one node. -/
theorem fold_gathered (hx : ∀ x ∈ xs, x.kind ≠ kind) (hy : ∀ y ∈ ys, y.kind ≠ kind) :
    fold kind (gathered kind xs) (gathered kind ys) = ofKind kind (xs ++ ys) none := by
  rw [fold, flattened_gathered hx, flattened_gathered hy]
  split
  · next same =>
    rw [eq_of_gathered_kind hx same]
    rfl
  · split
    · next same =>
      rw [eq_of_gathered_kind hy same]
      rfl
    · rfl

end

/-! ### Factors -/

theorem scale_of_unscaled {factor : Factor} {term : Node} (h : term.kind.isScale = false) :
    scale factor term = .ok (ofKind (.scale factor) [term] term.indices) := by
  rw [scale, h]
  rfl

theorem mapUnderFactors_scaled {f : Node → Node} {factor : Factor} {term : Node}
    (unscaled : term.kind.isScale = false) :
    (ofKind (.scale factor) [term] term.indices).mapUnderFactors f =
      .ok (ofKind (.scale factor) [f term] (f term).indices) := by
  simp only [ofKind, mapUnderFactors, mapLastUnderFactors, mapUnderFactors_of_unscaled unscaled]
  rfl

/-- A product of which some factors are applied; at most one may be. -/
def scaledBy (product : Node) : List Factor → Result Node
  | [] => .ok product
  | [factor] => scale factor product
  | _ :: _ :: _ => refuse .nestedScalars

section
variable {left right : Node} (hl : left.kind.isScale = false) (hr : right.kind.isScale = false)
include hl

/-- One more factor is one too many if there is one already. -/
theorem scaledBy_scale (factors : List Factor) (factor : Factor) :
    (do (← scaledBy left factors).times (.factor factor)) =
      scaledBy left (factors ++ [factor]) := by
  match factors with
  | [] => rfl
  | [first] =>
    rw [scaledBy, scale_of_unscaled hl]
    rfl
  | _ :: _ :: _ => rfl

include hr

theorem times_unscaled : left.times (.node right) = .ok (fold .einsum left right) := by
  rw [times, hl]
  exact mapUnderFactors_of_unscaled hr

theorem times_scaled_left (factor : Factor) :
    (ofKind (.scale factor) [left] left.indices).times (.node right) =
      scale factor (fold .einsum left right) := by
  have scaled : (ofKind (.scale factor) [left] left.indices).kind.isScale = true := rfl
  rw [scale_of_unscaled (isScale_fold left right), times, if_pos scaled, hr]
  exact mapUnderFactors_scaled hl

theorem times_scaled_right (factor : Factor) :
    left.times (.node (ofKind (.scale factor) [right] right.indices)) =
      scale factor (fold .einsum left right) := by
  rw [scale_of_unscaled (isScale_fold left right), times, hl]
  exact mapUnderFactors_scaled hr

/-- The factors of both operands are those of the product. -/
theorem scaledBy_times (lefts rights : List Factor) :
    (do (← scaledBy left lefts).times (.node (← scaledBy right rights))) =
      scaledBy (fold .einsum left right) (lefts ++ rights) := by
  match lefts, rights with
  | [], [] => exact times_unscaled hl hr
  | [], [factor] =>
    rw [scaledBy, scaledBy, scale_of_unscaled hr]
    exact times_scaled_right hl hr factor
  | [factor], [] =>
    rw [scaledBy, scaledBy, scale_of_unscaled hl]
    exact times_scaled_left hl hr factor
  | [_], [_] =>
    rw [scaledBy, scaledBy, scale_of_unscaled hl, scale_of_unscaled hr]
    rfl
  | [_], _ :: _ :: _ =>
    rw [scaledBy, scale_of_unscaled hl]
    rfl
  | [], _ :: _ :: _ | _ :: _ :: _, _ => rfl

end

/-! ### Bracketings -/

theorem isScale_gathered {xs : List Node} (h : ∀ x ∈ xs, x.kind.isScale = false) :
    (gathered .einsum xs).kind.isScale = false := by
  by_cases single : ∃ n, xs = [n]
  · obtain ⟨n, rfl⟩ := single
    exact h n (List.mem_singleton.mpr rfl)
  · rw [gathered_of_ne fun n h => single ⟨n, h⟩]
    rfl

/-- A bracketing of a product gives one node over its operands, with the factors outside. -/
theorem build_times {b : Bracketing} (single : ∀ x ∈ b.operands, x.kind ≠ .einsum)
    (unscaled : ∀ x ∈ b.operands, x.kind.isScale = false) :
    b.build times = scaledBy (gathered .einsum b.operands) b.factors := by
  induction b with
  | operand n => rfl
  | scaled part factor ih =>
    rw [Bracketing.build, ih single unscaled]
    exact scaledBy_scale (isScale_gathered unscaled) part.factors factor
  | join left right hl hr =>
    obtain ⟨sl, sr⟩ := List.forall_mem_append.mp single
    obtain ⟨ul, ur⟩ := List.forall_mem_append.mp unscaled
    have whole : fold .einsum (gathered .einsum left.operands) (gathered .einsum right.operands) =
        gathered .einsum (left.operands ++ right.operands) := by
      rw [fold_gathered sl sr, gathered_append left.operands_ne_nil right.operands_ne_nil]
    rw [Bracketing.build, hl sl ul, hr sr ur, Bracketing.operands, Bracketing.factors, ← whole]
    exact scaledBy_times (isScale_gathered ul) (isScale_gathered ur) left.factors right.factors

/-- A bracketing of a sum gives one node over its operands. -/
theorem build_plus {b : Bracketing} (single : ∀ x ∈ b.operands, x.kind ≠ .add)
    (plain : b.factors = []) : b.build plus = .ok (gathered .add b.operands) := by
  induction b with
  | operand n => rfl
  | scaled part factor _ =>
    rw [Bracketing.factors] at plain
    exact absurd plain (List.append_ne_nil_of_right_ne_nil _ (List.cons_ne_nil factor []))
  | join left right hl hr =>
    obtain ⟨sl, sr⟩ := List.forall_mem_append.mp single
    obtain ⟨pl, pr⟩ := List.append_eq_nil_iff.mp plain
    rw [Bracketing.build, hl sl pl, hr sr pr, Bracketing.operands,
      gathered_append left.operands_ne_nil right.operands_ne_nil, ← fold_gathered sl sr]
    rfl

/-- A product of two operands or more is one product of all of them, times the factor that was
applied anywhere; a second factor is refused. A sum is one sum of all its operands. -/
theorem Bracketing.build_eq (b : Bracketing) (several : 2 ≤ b.operands.length) :
    ((∀ x ∈ b.operands, x.kind ≠ .einsum ∧ x.kind.isScale = false) →
      b.build times =
        match b.factors with
        | [] => .ok (einsum b.operands)
        | [factor] => .ok (ofKind (.scale factor) [einsum b.operands] none)
        | _ :: _ :: _ => refuse .nestedScalars) ∧
    ((∀ x ∈ b.operands, x.kind ≠ .add) → b.factors = [] →
      b.build plus = .ok (add b.operands)) := by
  have whole (kind : Kind) : gathered kind b.operands = ofKind kind b.operands none := by
    apply gathered_of_ne
    intro n single
    rw [single, List.length_singleton] at several
    omega
  constructor
  · intro each
    rw [build_times (fun x hx => (each x hx).1) (fun x hx => (each x hx).2), whole]
    match b.factors with
    | [] => rfl
    | [factor] => exact scale_of_unscaled rfl
    | _ :: _ :: _ => rfl
  · intro each plain
    rw [build_plus each plain, whole]
    rfl

/-- `A (s B) C` and `A (B C)`, and `(s A) (t B)`, which has a factor too many. -/
theorem Bracketing.build_three :
    let a := dense "A" [⟨'i', 2⟩, ⟨'j', 3⟩]
    let b := dense "B" [⟨'j', 3⟩, ⟨'k', 2⟩]
    let c := dense "C" [⟨'k', 2⟩]
    let s : Factor := .named "s"
    (Bracketing.join (.join (.operand a) (.scaled (.operand b) s)) (.operand c)).build times =
        .ok (ofKind (.scale s) [einsum [a, b, c]] none) ∧
      (Bracketing.join (.operand a) (.join (.operand b) (.operand c))).build times =
        .ok (einsum [a, b, c]) ∧
      (Bracketing.join (.operand a) (.join (.operand b) (.operand c))).build plus =
        .ok (add [a, b, c]) ∧
      (Bracketing.join (.scaled (.operand a) s) (.scaled (.operand b) s)).build times =
        refuse .nestedScalars := by
  refine ⟨(build_eq _ ?_).1 ?_, (build_eq _ ?_).1 ?_, (build_eq _ ?_).2 ?_ rfl,
    (build_eq _ ?_).1 ?_⟩
  all_goals simp [operands, dense, ofKind, Kind.isScale]

end TensorKernel.Node
