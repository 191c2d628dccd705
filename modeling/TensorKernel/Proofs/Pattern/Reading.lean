import Mathlib.Data.List.Infix
import TensorKernel.Pattern.Descriptor
import TensorKernel.Proofs.Success

/-!
Descriptors as texts. A descriptor is read at the first arrow and the first comma before it, so index
names that are commas or parts of an arrow can be taken for separators.

* `parse_render`: which descriptors are read back as they were written;
* `parse_render_cases`: how the others are read;
* `eq_of_parse_render`: a descriptor that is read with operands of the right ranks is read back.
-/

namespace TensorKernel

namespace Descriptor

/-- A separator that does not overlap with itself is found where it first stands. -/
theorem splitFirst?_eq_some {separator text before after : List Char} (some_char : separator ≠ [])
    (apart : ∀ v rest, v ≠ [] → separator <+: v ++ separator ++ rest → separator <+: v) :
    splitFirst? separator text = some (before, after) ↔
      text = before ++ separator ++ after ∧ ¬separator <:+: before := by
  induction text generalizing before with
  | nil => simp [splitFirst?, some_char]
  | cons c cs ih =>
    rw [splitFirst?]
    split
    · next starts =>
      rw [List.isPrefixOf_iff_prefix] at starts
      obtain ⟨rest, text⟩ := starts
      rw [← text, List.drop_left, Option.some.injEq, Prod.mk.injEq]
      constructor
      · rintro ⟨rfl, rfl⟩
        refine ⟨rfl, fun inside => some_char (List.infix_nil.mp inside)⟩
      · rintro ⟨same, first⟩
        cases before with
        | nil => exact ⟨rfl, List.append_cancel_left same⟩
        | cons x xs =>
          have starts : separator <+: x :: xs :=
            apart _ after (List.cons_ne_nil x xs) (same ▸ List.prefix_append separator rest)
          exact absurd starts.isInfix first
    · next later =>
      rw [List.isPrefixOf_iff_prefix] at later
      rw [Option.map_eq_some_iff]
      constructor
      · rintro ⟨⟨first, last⟩, found, same⟩
        cases same
        obtain ⟨rfl, none⟩ := ih.mp found
        refine ⟨rfl, fun inside => ?_⟩
        rcases List.infix_cons_iff.mp inside with starts | inside
        · apply later
          rw [List.append_assoc, ← List.cons_append]
          exact starts.trans (List.prefix_append _ _)
        · exact none inside
      · rintro ⟨same, first⟩
        cases before with
        | nil => exact absurd (same ▸ List.prefix_append separator after) later
        | cons x xs =>
          obtain ⟨rfl, rest⟩ := List.cons.inj same
          exact ⟨(xs, after), ih.mpr ⟨rest, fun inside =>
            first (List.infix_cons_iff.mpr (.inr inside))⟩, rfl⟩

theorem splitFirst?_comma {text before after : List Char} :
    splitFirst? [','] text = some (before, after) ↔
      text = before ++ ',' :: after ∧ ',' ∉ before := by
  rw [splitFirst?_eq_some (List.cons_ne_nil _ _), List.append_assoc, List.singleton_append,
    List.singleton_infix_iff]
  intro v rest some_char
  cases v with
  | nil => exact absurd rfl some_char
  | cons => simp

theorem splitFirst?_arrow {text before after : List Char} :
    splitFirst? ['-', '>'] text = some (before, after) ↔
      text = before ++ '-' :: '>' :: after ∧ ¬['-', '>'] <:+: before := by
  rw [splitFirst?_eq_some (List.cons_ne_nil _ _), List.append_assoc, List.cons_append,
    List.singleton_append]
  intro v rest some_char
  match v with
  | [] => exact absurd rfl some_char
  | [_] | _ :: _ :: _ => simp

/-- What a descriptor is read as is written like it. -/
theorem render_of_parse {text : List Char} {d : Descriptor} (h : parse text = .ok d) :
    d.render = text := by
  unfold parse at h
  split at h
  · exact absurd h violates_ne_ok
  · next operands output arrow =>
    split at h
    · exact absurd h violates_ne_ok
    · next left right comma =>
      obtain rfl := Except.ok.inj h
      rw [(splitFirst?_arrow.mp arrow).1, (splitFirst?_comma.mp comma).1, render]

/-- A descriptor that is read with operands of the right ranks is read as it was written. -/
theorem eq_of_parse_render {d read : Descriptor} (h : parse d.render = .ok read)
    (left : read.left.length = d.left.length) (right : read.right.length = d.right.length) :
    read = d := by
  have text := render_of_parse h
  obtain ⟨l, r, o⟩ := d
  obtain ⟨l', r', o'⟩ := read
  dsimp only at left right
  simp only [render, List.append_assoc, List.cons_append] at text
  obtain ⟨rfl, rest⟩ := List.append_inj text left
  obtain ⟨rfl, arrow⟩ := List.append_inj (List.cons.inj rest).2 right
  cases arrow
  rfl

/-- The left operand has no comma, and neither operand has the two characters of an arrow next to
each other. -/
def Readable (d : Descriptor) : Prop :=
  ',' ∉ d.left ∧ ¬['-', '>'] <:+: d.left ∧ ¬['-', '>'] <:+: d.right

instance (d : Descriptor) : Decidable d.Readable :=
  inferInstanceAs (Decidable (_ ∧ _ ∧ _))

theorem arrow_infix_operands {l r : List Char} :
    ['-', '>'] <:+: l ++ ',' :: r ↔ ['-', '>'] <:+: l ∨ ['-', '>'] <:+: r := by
  rw [List.infix_append_iff, List.infix_cons_iff]
  constructor
  · rintro (inside | (starts | inside) | ⟨u, v, parts, ends, starts⟩)
    · exact .inl inside
    · simp at starts
    · exact .inr inside
    · cases v with
      | nil =>
        rw [parts, List.append_nil]
        exact .inl ends.isInfix
      | cons c v =>
        -- a comma would stand in the arrow
        obtain rfl : c = ',' := (List.cons_prefix_cons.mp starts).1
        have comma : ',' ∈ u ++ ',' :: v := by simp
        rw [← parts] at comma
        simp at comma
  · rintro (inside | inside)
    · exact .inl inside
    · exact .inr (.inl (.inr inside))

/-- Exactly the readable descriptors are read as they were written. -/
theorem parse_render {d : Descriptor} : parse d.render = .ok d ↔ d.Readable := by
  rw [Readable, ← not_or, ← arrow_infix_operands]
  constructor
  · intro h
    unfold parse at h
    split at h
    · exact absurd h violates_ne_ok
    · next operands output arrow =>
      split at h
      · exact absurd h violates_ne_ok
      · next left right comma =>
        obtain rfl := Except.ok.inj h
        obtain ⟨-, free⟩ := splitFirst?_arrow.mp arrow
        obtain ⟨rfl, first⟩ := splitFirst?_comma.mp comma
        exact ⟨first, free⟩
  · rintro ⟨first, free⟩
    have arrow : splitFirst? ['-', '>'] d.render = some (d.left ++ ',' :: d.right, d.output) :=
      splitFirst?_arrow.mpr ⟨by simp [render], free⟩
    have comma : splitFirst? [','] (d.left ++ ',' :: d.right) = some (d.left, d.right) :=
      splitFirst?_comma.mpr ⟨rfl, first⟩
    rw [parse, arrow]
    dsimp only
    rw [comma]

/-- Nothing before the first arrow depends on the output. What was written for the operands is read
for the operands or in front of the output. -/
theorem parse_render_cases {l r o : List Char} {d : Descriptor}
    (h : parse (render ⟨l, r, o⟩) = .ok d) :
    ∃ rest, d.output = rest ++ o ∧ (l ++ r).Perm (d.left ++ d.right ++ rest) ∧
      ∀ other, parse (render ⟨l, r, other⟩) = .ok ⟨d.left, d.right, rest ++ other⟩ := by
  unfold parse at h
  split at h
  · exact absurd h violates_ne_ok
  next before after arrow =>
  split at h
  · exact absurd h violates_ne_ok
  next left right comma =>
  obtain rfl := Except.ok.inj h
  obtain ⟨text, free⟩ := splitFirst?_arrow.mp arrow
  have again {tail other : List Char}
      (text : render ⟨l, r, other⟩ = before ++ '-' :: '>' :: (tail ++ other)) :
      parse (render ⟨l, r, other⟩) = .ok ⟨left, right, tail ++ other⟩ := by
    rw [parse, splitFirst?_arrow.mpr ⟨text, free⟩]
    dsimp only
    rw [comma]
  obtain ⟨rfl, -⟩ := splitFirst?_comma.mp comma
  have whole (other : List Char) :
      render ⟨l, r, other⟩ = (l ++ ',' :: r) ++ '-' :: '>' :: other := by
    simp [render]
  rw [whole] at text
  -- without its comma, the text of the operands is that of both of them
  have merged {tail : List Char} (same : l ++ ',' :: r = left ++ ',' :: right ++ tail) :
      (l ++ r).Perm (left ++ right ++ tail) := by
    have written : (',' :: (l ++ r)).Perm (l ++ ',' :: r) := List.perm_middle.symm
    have read : (left ++ ',' :: (right ++ tail)).Perm (',' :: (left ++ (right ++ tail))) :=
      List.perm_middle
    rw [same, List.append_assoc, List.cons_append] at written
    rw [List.append_assoc]
    exact (written.trans read).cons_inv
  rcases List.append_eq_append_iff.mp text with ⟨more, same, last⟩ | ⟨more, same, last⟩
  · -- an arrow that is found later would have the written one before it
    match more, last with
    | [], last =>
      cases last
      refine ⟨[], rfl, ?_, fun other => again ?_⟩
      · exact merged (by simpa using same.symm)
      · rw [whole, same]
        simp
    | [_], last => cases last
    | _ :: _ :: tail, last =>
      cases last
      exact absurd ⟨l ++ ',' :: r, tail, by simp [same]⟩ free
  · match more, last with
    | [], last =>
      cases last
      refine ⟨[], rfl, ?_, fun other => again ?_⟩
      · exact merged (by simpa using same)
      · rw [whole, same]
        simp
    | [_], last => cases last
    | _ :: _ :: tail, last =>
      cases last
      refine ⟨tail ++ ['-', '>'], by simp, ?_, fun other => again ?_⟩
      · refine (merged same).trans (List.Perm.append_left _ ?_)
        show (['-', '>'] ++ tail).Perm (tail ++ ['-', '>'])
        exact List.perm_append_comm
      · rw [whole, same]
        simp

end Descriptor

end TensorKernel
