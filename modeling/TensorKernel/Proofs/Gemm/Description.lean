import Mathlib.Data.List.Perm.Subperm
import TensorKernel.Proofs.Gemm.Subscript

/-!
What the text of a mapping says about the storage of its operands: which indices are looped over,
and which groups can be addressed as one dimension.

* `Cut.of_mem`: where the pieces of a subscript come from;
* `Cut.encloses_iff`: a group is written as one piece if its indices stand together;
* `Tells`: what the pieces say about an operand;
* `describe_tells`: the text of a mapping says it of all three operands.
-/

namespace TensorKernel.Gemm

def Piece.touches (part : Indices) (piece : Piece) : Bool := piece.names.any part.contains

/-- The names of a group stand in one pair of parentheses, and nowhere else. -/
def Encloses (pieces : List Piece) (part : Indices) : Prop :=
  ∃ names, pieces.filter (·.touches part) = [.fused names] ∧ names.Perm part.names

section
variable {groups : List Indices} {names : List Char} {pieces : List Piece} {part : Indices}

theorem Cut.names_eq (cut : Cut groups names pieces) : pieces.flatMap Piece.names = names := by
  induction cut with
  | nil => rfl
  | run _ _ _ _ _ ih => rw [List.flatMap_cons, ih, Piece.names]
  | single _ _ ih => rw [List.flatMap_cons, ih, Piece.names_single, List.singleton_append]

theorem Cut.of_mem (cut : Cut groups names pieces) {piece : Piece} (h : piece ∈ pieces) :
    (∃ run, ∃ part ∈ groups, 2 ≤ part.size ∧ run.length = part.size ∧
      (∀ c ∈ run, c ∈ part.names) ∧ piece = .fused run) ∨
    ∃ before name rest, names = before ++ name :: rest ∧
      (∀ part ∈ groups, 2 ≤ part.size → startsRun part part.size (name :: rest) = false) ∧
      piece = .single groups name := by
  induction cut with
  | nil => cases h
  | @run part names rest pieces mem several length all others ih =>
    rcases List.mem_cons.mp h with rfl | later
    · exact .inl ⟨names, part, mem, several, length, all, rfl⟩
    · refine (ih later).imp_right ?_
      rintro ⟨before, name, rest', rfl, found⟩
      exact ⟨names ++ before, name, rest', (List.append_assoc ..).symm, found⟩
  | @single name rest pieces free others ih =>
    rcases List.mem_cons.mp h with rfl | later
    · exact .inr ⟨[], name, rest, rfl, free, rfl⟩
    · refine (ih later).imp_right ?_
      rintro ⟨before, name', rest', rfl, found⟩
      exact ⟨name :: before, name', rest', rfl, found⟩

theorem Piece.single_eq_looped_iff {name c : Char} :
    single groups name = .looped c ↔ name = c ∧ ∀ part ∈ groups, c ∉ part.names := by
  unfold single
  split
  · next grouped =>
    obtain ⟨part, mem, there⟩ := List.any_eq_true.mp grouped
    rw [Indices.contains_iff] at there
    simp only [reduceCtorEq, false_iff]
    rintro ⟨rfl, free⟩
    exact free part mem there
  · next free =>
    rw [Bool.not_eq_true, List.any_eq_false] at free
    simp only [Indices.contains_iff] at free
    rw [looped.injEq]
    constructor
    · rintro rfl
      exact ⟨rfl, free⟩
    · exact And.left

/-- Exactly the names that no group has are in brackets. -/
theorem Cut.looped_iff (cut : Cut groups names pieces) {name : Char} :
    .looped name ∈ pieces ↔ name ∈ names ∧ ∀ part ∈ groups, name ∉ part.names := by
  constructor
  · intro h
    have listed : name ∈ pieces.flatMap Piece.names :=
      List.mem_flatMap.mpr ⟨_, h, List.mem_singleton_self name⟩
    rw [cut.names_eq] at listed
    rcases cut.of_mem h with ⟨_, _, _, _, _, _, ⟨⟩⟩ | ⟨_, c, _, _, _, single⟩
    exact ⟨listed, (Piece.single_eq_looped_iff.mp single.symm).2⟩
  · rintro ⟨listed, free⟩
    rw [← cut.names_eq] at listed
    obtain ⟨piece, mem, there⟩ := List.mem_flatMap.mp listed
    rcases cut.of_mem mem with ⟨run, part, group, _, _, all, rfl⟩ | ⟨_, c, _, _, _, rfl⟩
    · exact absurd (all name there) (free part group)
    · rw [Piece.names_single, List.mem_singleton] at there
      rwa [Piece.single_eq_looped_iff.mpr ⟨there.symm, free⟩] at mem

theorem Cut.segment (cut : Cut groups names pieces) {piece : Piece} (h : piece ∈ pieces) :
    ∃ first last, pieces = first ++ piece :: last ∧
      names = first.flatMap Piece.names ++ piece.names ++ last.flatMap Piece.names := by
  obtain ⟨first, last, rfl⟩ := List.append_of_mem h
  refine ⟨first, last, rfl, ?_⟩
  rw [← cut.names_eq, List.flatMap_append, List.flatMap_cons, List.append_assoc]

/-- Where no name is repeated, whatever stands in parentheses is a group. -/
theorem Cut.group_of_fused (cut : Cut groups names pieces) (once : names.Nodup) {run : List Char}
    (h : .fused run ∈ pieces) : ∃ part ∈ groups, 2 ≤ part.size ∧ run.Perm part.names := by
  rcases cut.of_mem h with ⟨_, part, mem, several, length, all, ⟨⟩⟩ | ⟨_, c, _, _, _, single⟩
  · refine ⟨part, mem, several, ?_⟩
    obtain ⟨first, last, -, split⟩ := cut.segment h
    have runOnce : run.Nodup := by
      rw [split] at once
      exact (List.nodup_append.mp (List.nodup_append.mp once).1).2.1
    refine (runOnce.subperm fun c hc => all c hc).perm_of_length_le ?_
    rw [length, Indices.length_names]
  · unfold Piece.single at single
    split at single <;> cases single

/-- A group in parentheses has no name outside. -/
theorem Cut.encloses_of_mem (cut : Cut groups names pieces) (once : names.Nodup) {run : List Char}
    (h : .fused run ∈ pieces) (several : 2 ≤ part.size) (perm : run.Perm part.names) :
    Encloses pieces part := by
  obtain ⟨first, last, rfl, split⟩ := cut.segment h
  rw [split] at once
  obtain ⟨both, -, behind⟩ := List.nodup_append.mp once
  obtain ⟨-, -, ahead⟩ := List.nodup_append.mp both
  have outside {others : List Piece} (apart : ∀ c ∈ others.flatMap Piece.names, c ∉ run) :
      others.filter (·.touches part) = [] := by
    refine List.filter_eq_nil_iff.mpr fun piece mem touches => ?_
    obtain ⟨c, hc, there⟩ := List.any_eq_true.mp touches
    rw [Indices.contains_iff] at there
    exact apart c (List.mem_flatMap.mpr ⟨piece, mem, hc⟩) (perm.mem_iff.mpr there)
  have touches : (Piece.fused run).touches part = true := by
    have length : 0 < run.length := by
      rw [perm.length_eq, Indices.length_names]
      omega
    obtain ⟨c, hc⟩ := List.exists_mem_of_length_pos length
    exact List.any_eq_true.mpr ⟨c, hc, Indices.contains_iff.mpr (perm.mem_iff.mp hc)⟩
  refine ⟨run, ?_, perm⟩
  rw [List.filter_append, List.filter_cons_of_pos touches, outside, outside, List.nil_append]
  · exact fun c hc there => behind c (List.mem_append_right _ there) c hc rfl
  · exact fun c hc there => ahead c hc c there rfl

/-- A run starts wherever its first name stands, since that is one place. -/
theorem startsRun_of_split {f : Char} {before window after before' rest : List Char}
    (once : names.Nodup) (split : names = before ++ f :: window ++ after)
    (split' : names = before' ++ f :: rest) (length : (f :: window).length = part.size)
    (all : ∀ c ∈ f :: window, c ∈ part.names) : startsRun part part.size (f :: rest) = true := by
  rw [List.append_assoc, List.cons_append] at split
  have apart : f ∉ before ++ (window ++ after) := by
    rw [split, List.nodup_middle] at once
    exact (List.nodup_cons.mp once).1
  rw [List.mem_append, not_or] at apart
  obtain ⟨-, -, rfl⟩ :=
    (List.append_cons_inj_of_notMem apart.1 apart.2).mp (split.symm.trans split')
  exact startsRun_iff.mpr ⟨f :: window, after, rfl, length, all⟩

/-- A group is written as one piece exactly if its names stand together. -/
theorem Cut.encloses_iff {i : Indices} (cut : Cut groups i.names pieces) (apart : Apart groups)
    (distinct : i.Distinct) (mem : part ∈ groups) (several : 2 ≤ part.size) :
    Encloses pieces part ↔ i.Adjacent part := by
  constructor
  · rintro ⟨run, one, perm⟩
    have there : .fused run ∈ pieces :=
      List.mem_of_mem_filter (one ▸ List.mem_singleton_self (Piece.fused run))
    obtain ⟨first, last, -, split⟩ := cut.segment there
    exact Indices.adjacent_of_split distinct split perm
  · intro adjacent
    obtain ⟨before, window, after, split, perm⟩ := adjacent.split
    have length : window.length = part.size := by rw [perm.length_eq, Indices.length_names]
    cases window with
    | nil =>
      rw [List.length_nil] at length
      omega
    | cons f window =>
      have own : f ∈ part.names := perm.mem_iff.mp List.mem_cons_self
      have listed : f ∈ pieces.flatMap Piece.names := by
        rw [cut.names_eq, split]
        simp
      obtain ⟨piece, there, named⟩ := List.mem_flatMap.mp listed
      rcases cut.of_mem there with ⟨run, _, _, _, _, _, rfl⟩ | ⟨before', c, rest, split', free, rfl⟩
      · obtain ⟨other, group, _, perm'⟩ := cut.group_of_fused distinct there
        have same : part = other := by
          refine (apart part mem other group).resolve_right fun disjoint => ?_
          exact disjoint f own (perm'.mem_iff.mp named)
        exact cut.encloses_of_mem distinct there several (same ▸ perm')
      · -- A name that stands for itself starts no run, but this one is the first of its group.
        rw [Piece.names_single, List.mem_singleton] at named
        subst named
        have starts := startsRun_of_split distinct split split' length
          fun c hc => perm.mem_iff.mp hc
        rw [free part mem several] at starts
        cases starts

end

/-! ### Loop indices -/

section
variable {c a b : Indices} {g : Gemm} {name : Char}

theorem mem_names_loopIndices : name ∈ (g.loopIndices c a b).names ↔
    (name ∈ c.names ∧ name ∉ g.m.names ∧ name ∉ g.n.names) ∨
    (name ∈ a.names ∧ name ∉ g.m.names ∧ name ∉ g.k.names) ∨
    (name ∈ b.names ∧ name ∉ g.k.names ∧ name ∉ g.n.names) := by
  simp only [loopIndices, Indices.mem_names_merge, Indices.mem_names_diff]
  tauto

/-- An operand is looped over by the indices that are in neither of its own groups; the third group
has none of its names. -/
theorem looped_iff (named : g.Named c a b) :
    (name ∈ c.names → (name ∈ (g.loopIndices c a b).names ↔
      ∀ part ∈ [g.m, g.n], name ∉ part.names)) ∧
    (name ∈ a.names → (name ∈ (g.loopIndices c a b).names ↔
      ∀ part ∈ [g.m, g.k], name ∉ part.names)) ∧
    (name ∈ b.names → (name ∈ (g.loopIndices c a b).names ↔
      ∀ part ∈ [g.k, g.n], name ∉ part.names)) := by
  have rows := named.rows name
  have columns := named.columns name
  have summed := named.summed name
  simp only [mem_names_loopIndices, List.forall_mem_cons, List.not_mem_nil]
  tauto

theorem apart_pair {x y : Indices} (h : ∀ name ∈ x.names, name ∉ y.names) : Apart [x, y] := by
  have h' : ∀ name ∈ y.names, name ∉ x.names := fun name hy hx => h name hx hy
  simp only [Apart, List.forall_mem_cons, List.not_mem_nil]
  tauto

end

/-! ### The text of a mapping -/

def piecesText (operand : String) (transposed : Bool) (pieces : List Piece) : String :=
  operand ++ (if transposed then "^T" else "") ++ "_\x7b" ++
    String.ofList (pieces.flatMap Piece.text) ++ "\x7d"

/-- What the pieces of a subscript say about an operand. Index sets repeat no name; if one did, a
group could stand in more than one place. -/
structure Tells (groups : List Indices) (loops i : Indices) (pieces : List Piece) : Prop where
  /-- They are what is written. -/
  text : subscript groups i = pieces.flatMap Piece.text
  /-- The names stand in storage order. -/
  order : pieces.flatMap Piece.names = i.names
  /-- A name is in brackets if no group has it. -/
  bracketed : ∀ name, .looped name ∈ pieces ↔
    name ∈ i.names ∧ ∀ part ∈ groups, name ∉ part.names
  /-- These are the names that are looped over. -/
  looped : ∀ name ∈ i.names, .looped name ∈ pieces ↔ name ∈ loops.names
  /-- Names are in parentheses only as a group. -/
  grouped : i.Distinct → ∀ names, .fused names ∈ pieces →
    ∃ part ∈ groups, 2 ≤ part.size ∧ names.Perm part.names
  /-- A group is in parentheses if it stands together. -/
  together : i.Distinct → ∀ part ∈ groups, 2 ≤ part.size →
    (Encloses pieces part ↔ i.Adjacent part)
  /-- These are the groups that any layout of the operand lets be addressed as one dimension. -/
  stored : i.Distinct → ∀ part ∈ groups, 2 ≤ part.size → ∀ l : Layout, l.Built →
    l.box.rank = i.size → (Encloses pieces part ↔ fuses i l part = .ok true)

section
variable {groups : List Indices} {loops i : Indices} {pieces : List Piece}

theorem Tells.operandText_eq (h : Tells groups loops i pieces) (operand : String)
    (transposed : Bool) :
    operandText operand groups i transposed = piecesText operand transposed pieces := by
  rw [operandText, piecesText, h.text]

theorem exists_tells (apart : Apart groups)
    (looped : ∀ name ∈ i.names, name ∈ loops.names ↔ ∀ part ∈ groups, name ∉ part.names) :
    ∃ pieces, Tells groups loops i pieces := by
  obtain ⟨pieces, cut⟩ := exists_cut groups i.names
  refine ⟨pieces, cut.subscript_eq apart, cut.names_eq, fun name => cut.looped_iff,
    fun name named => ?_, fun distinct names => cut.group_of_fused distinct,
    fun distinct part => cut.encloses_iff apart distinct,
    fun distinct part mem several l built rank => ?_⟩
  · rw [cut.looped_iff, looped name named, and_iff_right named]
  · rw [cut.encloses_iff apart distinct mem several, fuses_iff built.strided rank several]

end

/-- The text of a mapping consists of the pieces of the three subscripts, which tell the storage
order, the loop indices and the groups that can be addressed as one dimension. -/
theorem describe_tells {c a b : Indices} {p : Partition} {g : Gemm}
    (made : ofPartition c a b p = .ok g) : ∃ ofResult ofLeft ofRight : List Piece,
      g.describe (some c) (some a) (some b) =
        piecesText "C" false ofResult ++ " = " ++ piecesText "A" g.transA ofLeft ++ " " ++
          piecesText "B" g.transB ofRight ∧
      Tells [g.m, g.n] (g.loopIndices c a b) c ofResult ∧
      Tells [g.m, g.k] (g.loopIndices c a b) a ofLeft ∧
      Tells [g.k, g.n] (g.loopIndices c a b) b ofRight := by
  have named : g.Named c a b := by
    obtain ⟨-, -, fits, rfl⟩ := ofPartition_iff.mp made
    exact named_of_fits fits
  have result : Apart [g.m, g.n] := apart_pair fun name row column =>
    (named.columns name column).2.2 (named.rows name row).1
  have left : Apart [g.m, g.k] := apart_pair fun name row summed =>
    (named.summed name summed).2.2 (named.rows name row).2.1
  have right : Apart [g.k, g.n] := apart_pair fun name summed column =>
    (named.summed name summed).2.2 (named.columns name column).2.1
  obtain ⟨ofResult, tells⟩ := exists_tells result fun _ => (looped_iff named).1
  obtain ⟨ofLeft, tells'⟩ := exists_tells left fun _ => (looped_iff named).2.1
  obtain ⟨ofRight, tells''⟩ := exists_tells right fun _ => (looped_iff named).2.2
  refine ⟨ofResult, ofLeft, ofRight, ?_, tells, tells', tells''⟩
  rw [← tells.operandText_eq, ← tells'.operandText_eq, ← tells''.operandText_eq]
  rfl

/-- A product in a loop over `l`: the rows of the left operand are apart, so it cannot be addressed
as a matrix, but its summed indices stand together, and so do the rows of the result. -/
theorem describe_tells_batched :
    let c : Indices := ⟨[⟨'j', 4⟩, ⟨'i', 2⟩, ⟨'l', 3⟩, ⟨'n', 5⟩]⟩
    let a : Indices := ⟨[⟨'i', 2⟩, ⟨'k', 6⟩, ⟨'o', 2⟩, ⟨'j', 4⟩, ⟨'l', 3⟩]⟩
    let b : Indices := ⟨[⟨'n', 5⟩, ⟨'o', 2⟩, ⟨'k', 6⟩, ⟨'l', 3⟩]⟩
    let p : Partition := ⟨⟨[⟨'i', 2⟩, ⟨'j', 4⟩]⟩, ⟨[⟨'n', 5⟩]⟩, ⟨[⟨'k', 6⟩, ⟨'o', 2⟩]⟩⟩
    ∃ g, ofPartition c a b p = .ok g ∧
      g.describe (some c) (some a) (some b) =
        "C_\x7b(ji)[l]n\x7d = A_\x7bi(ko)j[l]\x7d B^T_\x7bn(ok)[l]\x7d" ∧
      ∃ ofResult ofLeft ofRight : List Piece,
        g.describe (some c) (some a) (some b) =
          piecesText "C" false ofResult ++ " = " ++ piecesText "A" g.transA ofLeft ++ " " ++
            piecesText "B" g.transB ofRight ∧
        Encloses ofResult g.m ∧ ¬Encloses ofLeft g.m ∧ Encloses ofLeft g.k ∧
        Encloses ofRight g.k ∧ .looped 'l' ∈ ofRight := by
  intro c a b p
  obtain ⟨g, made⟩ : ∃ g, ofPartition c a b p = .ok g := ⟨_, rfl⟩
  obtain ⟨ofResult, ofLeft, ofRight, text, result, left, right⟩ := describe_tells made
  obtain rfl := (ofPartition_iff.mp made).2.2.2
  refine ⟨_, made, by decide +kernel, ofResult, ofLeft, ofRight, text, ?_, ?_, ?_, ?_, ?_⟩
  · exact (result.together (by decide) p.m (by simp) (by decide)).mpr ⟨[0, 1], by decide, by decide⟩
  · rw [left.stored (by decide) p.m (by simp) (by decide) _ (.full a.shape) (by decide)]
    decide
  · exact (left.together (by decide) p.k (by simp) (by decide)).mpr ⟨[1, 2], by decide, by decide⟩
  · exact (right.together (by decide) p.k (by simp) (by decide)).mpr ⟨[1, 2], by decide, by decide⟩
  · rw [right.bracketed]
    decide

end TensorKernel.Gemm
