import TensorKernel.Proofs.Pattern.Support
import TensorKernel.Tree.Sparsity

/-!
Descriptors of products of index sets. The names are written without a mark that tells them from the
separators, so that a text can be split at another place than where its parts were joined. Then one
of the operands has lost names or gained some, and does not fit the rank of its pattern any more:
a product is computed for the names that were written, or else it is refused.

* `splitFirst?_eq_none`: where no separator is found;
* `parse_render_or`: what is read of a descriptor that was written;
* `reads_written`: products of patterns with the ranks of the operands.
-/

namespace TensorKernel

namespace Descriptor

theorem splitFirst?_eq_none {separator text : List Char} (some_char : separator ≠ []) :
    splitFirst? separator text = none ↔ ¬separator <:+: text := by
  induction text with
  | nil => simp [splitFirst?, some_char]
  | cons c cs ih =>
    rw [splitFirst?, List.infix_cons_iff, ← List.isPrefixOf_iff_prefix]
    split
    · next starts => simp [starts]
    · next later => simp [later, ih]

/-- A written descriptor has an arrow, so only the comma before it can be missing. -/
theorem parse_render_or (d : Descriptor) :
    (∃ read, parse d.render = .ok read) ∨
      parse d.render = violates (.descriptorOperands d.render) := by
  have arrow : ['-', '>'] <:+: d.render :=
    ⟨d.left ++ ',' :: d.right, d.output, by simp [render]⟩
  rw [parse]
  split
  case h_1 none => exact absurd arrow ((splitFirst?_eq_none (List.cons_ne_nil _ _)).mp none)
  case h_2 operands output _ =>
    split
    case h_1 => exact .inr rfl
    case h_2 left right _ => exact .inl ⟨_, rfl⟩

end Descriptor

namespace Pattern

theorem einsum_of_unread {text : List Char} {cause : InvariantError} {a b : Pattern}
    (failed : Descriptor.parse text = violates cause) : einsum text a b = violates cause := by
  rw [einsum, failed]
  rfl

/-- A product does not go on with operands that its patterns do not fit. -/
theorem einsum_of_ranks {text : List Char} {d : Descriptor} {a b : Pattern}
    (parsed : Descriptor.parse text = .ok d)
    (ranks : ¬(d.left.length = a.shape.length ∧ d.right.length = b.shape.length)) :
    einsum text a b = violates (.descriptorRanks text a.shape b.shape) := by
  rw [not_and_or] at ranks
  rw [einsum, parsed]
  exact if_pos (by simpa using ranks)

/-- With patterns of the ranks of its operands, a product goes on only with the names that were
written. It does so exactly if its descriptor is readable, and is refused otherwise. -/
theorem reads_written {l r o : Indices} {a b : Pattern} (left : a.shape.length = l.size)
    (right : b.shape.length = r.size) :
    let text := Node.productDescriptor l r o
    let written : Descriptor := ⟨l.names, r.names, o.names⟩
    (∀ d, Descriptor.parse text = .ok d → d.left.length = a.shape.length →
        d.right.length = b.shape.length → d = written) ∧
      (written.Readable → Descriptor.parse text = .ok written) ∧
      (¬written.Readable → einsum text a b = violates (.descriptorOperands text) ∨
        einsum text a b = violates (.descriptorRanks text a.shape b.shape)) := by
  intro text written
  have ranks : a.shape.length = l.names.length ∧ b.shape.length = r.names.length := by
    rw [l.length_names, r.length_names]
    exact ⟨left, right⟩
  have same : ∀ d, Descriptor.parse text = .ok d → d.left.length = a.shape.length →
      d.right.length = b.shape.length → d = written := by
    intro d parsed first second
    exact Descriptor.eq_of_parse_render parsed (first.trans ranks.1) (second.trans ranks.2)
  refine ⟨same, Descriptor.parse_render.mpr, fun unreadable => ?_⟩
  rcases Descriptor.parse_render_or written with ⟨d, parsed⟩ | failed
  · refine .inr (einsum_of_ranks parsed ?_)
    rintro ⟨first, second⟩
    rw [same d parsed first second] at parsed
    exact unreadable (Descriptor.parse_render.mp parsed)
  · exact .inl (einsum_of_unread failed)

/-- The operands `i-` and `>,` are read as they were written although the parts of an arrow and a
comma are among their names. The comma in `i,` goes to the other operand, and the product is
refused. -/
theorem reads_written_separators :
    let l : Indices := ⟨[⟨'i', 2⟩, ⟨'-', 3⟩]⟩
    let r : Indices := ⟨[⟨'>', 3⟩, ⟨',', 4⟩]⟩
    let o : Indices := ⟨[⟨'-', 3⟩, ⟨'>', 3⟩]⟩
    let l' : Indices := ⟨[⟨'i', 2⟩, ⟨',', 3⟩]⟩
    let text := Node.productDescriptor l' r o
    (dense [2, 3]).shape.length = l.size ∧ (dense [3, 4]).shape.length = r.size ∧
      Descriptor.parse (Node.productDescriptor l r o) = .ok ⟨['i', '-'], ['>', ','], ['-', '>']⟩ ∧
      Descriptor.parse text = .ok ⟨['i'], [',', '>', ','], ['-', '>']⟩ ∧
      (einsum text (dense [2, 3]) (dense [3, 4]) = violates (.descriptorOperands text) ∨
        einsum text (dense [2, 3]) (dense [3, 4]) =
          violates (.descriptorRanks text [2, 3] [3, 4])) := by
  refine ⟨rfl, rfl, ?_, by decide, ?_⟩
  · exact (reads_written (a := dense [2, 3]) (b := dense [3, 4]) rfl rfl).2.1 (by decide)
  · exact (reads_written rfl rfl).2.2 (by decide)

end Pattern

end TensorKernel
