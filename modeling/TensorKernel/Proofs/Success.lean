import Mathlib.Data.List.Forall2
import TensorKernel.Error

/-!
Steps that succeed: what is known of the parts of a computation whose result is known.
-/

namespace TensorKernel

section
variable {ε α β : Type}

theorem bind_eq_ok {x : Except ε α} {f : α → Except ε β} {b : β} :
    x >>= f = .ok b ↔ ∃ a, x = .ok a ∧ f a = .ok b := by
  cases x with
  | error e => simp [bind, Except.bind]
  | ok a => simp [bind, Except.bind]

theorem bind_eq_error {x : Except ε α} {f : α → Except ε β} {e : ε} :
    x >>= f = .error e ↔ x = .error e ∨ ∃ a, x = .ok a ∧ f a = .error e := by
  cases x with
  | error e' => simp [bind, Except.bind]
  | ok a => simp [bind, Except.bind]

theorem ok_bind {a : α} {f : α → Except ε β} : (Except.ok a >>= f) = f a := rfl

theorem pure_eq_ok {a b : α} : (pure a : Except ε α) = .ok b ↔ a = b := by
  simp [pure, Except.pure]

@[simp] theorem pure_ne_error {a : α} {e : ε} : (pure a : Except ε α) ≠ .error e := by
  simp [pure, Except.pure]

theorem bind_pure_eq_error {x : Except ε α} {g : α → β} {e : ε} :
    (x >>= fun a => pure (g a)) = .error e ↔ x = .error e := by
  cases x <;> simp [bind, Except.bind]

/-- A value that is found by evaluation can be compared where errors cannot. -/
theorem eq_ok_of_toOption {x : Except ε α} {a : α} (h : x.toOption = some a) : x = .ok a := by
  cases x with
  | error e => cases h
  | ok b => rw [Option.some.inj h]

theorem map_eq_ok {x : Except ε α} {f : α → β} {b : β} :
    f <$> x = .ok b ↔ ∃ a, x = .ok a ∧ f a = b := by
  cases x <;> simp [Functor.map, Except.map]

theorem mapError_eq_ok {ε' : Type} {x : Except ε α} {f : ε → ε'} {a : α} :
    x.mapError f = .ok a ↔ x = .ok a := by
  cases x <;> simp [Except.mapError]

theorem mapError_eq_error {ε' : Type} {x : Except ε α} {f : ε → ε'} {e : ε'} :
    x.mapError f = .error e ↔ ∃ cause, x = .error cause ∧ f cause = e := by
  cases x <;> simp [Except.mapError]

@[simp] theorem refuse_ne_ok {cause : CompositionError} {a : α} : refuse cause ≠ .ok a := by
  simp [refuse]

@[simp] theorem violates_ne_ok {cause : InvariantError} {a : α} : violates cause ≠ .ok a := by
  simp [violates]

/-- Where all elements succeed, each result belongs to the element in its place. -/
theorem mapM_eq_ok {f : α → Except ε β} {as : List α} {bs : List β} :
    as.mapM f = .ok bs ↔ List.Forall₂ (fun a b => f a = .ok b) as bs := by
  induction as generalizing bs with
  | nil => rw [List.mapM_nil, pure_eq_ok, List.forall₂_nil_left_iff, eq_comm]
  | cons a as ih =>
    simp only [List.mapM_cons, bind_eq_ok, pure_eq_ok, ih, List.forall₂_cons_left_iff]
    grind

theorem mapM_eq_some {f : α → Option β} {as : List α} {bs : List β} :
    as.mapM f = some bs ↔ List.Forall₂ (fun a b => f a = some b) as bs := by
  induction as generalizing bs with
  | nil => rw [List.mapM_nil, Option.pure_def, Option.some.injEq, List.forall₂_nil_left_iff, eq_comm]
  | cons a as ih =>
    simp only [List.mapM_cons, Option.bind_eq_bind, Option.bind_eq_some_iff, Option.pure_def,
      Option.some.injEq, ih, List.forall₂_cons_left_iff]
    grind

/-! ### Lists related element by element -/

theorem exists_of_forall₂_right {r : α → β → Prop} {as : List α} {bs : List β}
    (h : List.Forall₂ r as bs) {b : β} (hb : b ∈ bs) : ∃ a ∈ as, r a b := by
  induction h with
  | nil => cases hb
  | @cons a b' as bs hr _ ih =>
    rcases List.mem_cons.mp hb with rfl | hb
    · exact ⟨a, List.mem_cons_self, hr⟩
    · obtain ⟨a', mem, related⟩ := ih hb
      exact ⟨a', List.mem_cons_of_mem a mem, related⟩

theorem forall₂_of_exists {r : α → β → Prop} {as : List α} (h : ∀ a ∈ as, ∃ b, r a b) :
    ∃ bs, List.Forall₂ r as bs := by
  induction as with
  | nil => exact ⟨[], .nil⟩
  | cons a as ih =>
    obtain ⟨⟨b, first⟩, rest⟩ := List.forall_mem_cons.mp h
    obtain ⟨bs, others⟩ := ih rest
    exact ⟨b :: bs, .cons first others⟩

theorem forall₂_one {r : α → β → Prop} {a : α} {bs : List β} (h : List.Forall₂ r [a] bs) :
    ∃ b, bs = [b] ∧ r a b := by
  cases h with
  | cons related rest =>
    cases rest
    exact ⟨_, rfl, related⟩

theorem forall₂_two {r : α → β → Prop} {a a' : α} {bs : List β} (h : List.Forall₂ r [a, a'] bs) :
    ∃ b b', bs = [b, b'] ∧ r a b ∧ r a' b' := by
  cases h with
  | cons related rest =>
    obtain ⟨b', rfl, related'⟩ := forall₂_one rest
    exact ⟨_, b', rfl, related, related'⟩

theorem forall₂_getElem? {r : α → β → Prop} {as : List α} {bs : List β} (h : List.Forall₂ r as bs)
    {j : Nat} {a : α} {b : β} (ha : as[j]? = some a) (hb : bs[j]? = some b) : r a b := by
  obtain ⟨hj, rfl⟩ := List.getElem?_eq_some_iff.mp ha
  obtain ⟨hj', rfl⟩ := List.getElem?_eq_some_iff.mp hb
  exact h.get hj hj'

theorem forall₂_imp_of_mem {r s : α → β → Prop} {as : List α} {bs : List β}
    (h : List.Forall₂ r as bs) (imp : ∀ a ∈ as, ∀ b, r a b → s a b) : List.Forall₂ s as bs := by
  induction h with
  | nil => exact .nil
  | cons hr _ ih =>
    exact .cons (imp _ List.mem_cons_self _ hr)
      (ih fun a ha => imp a (List.mem_cons_of_mem _ ha))

theorem forall₂_getLast? {r : α → β → Prop} {as : List α} {bs : List β} (h : List.Forall₂ r as bs) :
    List.Forall₂ r as.getLast?.toList bs.getLast?.toList := by
  induction h with
  | nil => exact .nil
  | cons first rest ih =>
    cases rest with
    | nil => exact .cons first .nil
    | cons => simpa [List.getLast?_cons_cons] using ih

theorem forall₂_comp {γ : Type} {r : α → β → Prop} {s : β → γ → Prop} {as : List α} {bs : List β}
    {cs : List γ} (h : List.Forall₂ r as bs) (k : List.Forall₂ s bs cs) :
    List.Forall₂ (fun a c => ∃ b, r a b ∧ s b c) as cs := by
  induction h generalizing cs with
  | nil =>
    cases k
    exact .nil
  | cons related _ ih =>
    cases k with
    | cons related' rest => exact .cons ⟨_, related, related'⟩ (ih rest)

theorem map_eq_of_forall₂ {γ : Type} {f : α → γ} {g : β → γ} {as : List α} {bs : List β}
    (h : List.Forall₂ (fun a b => g b = f a) as bs) : bs.map g = as.map f := by
  induction h with
  | nil => rfl
  | cons hr _ ih => rw [List.map_cons, List.map_cons, hr, ih]

end

end TensorKernel
