import TensorKernel.Gemm.Describe
import TensorKernel.Proofs.Gemm.StorageOrder

/-!
Subscripts as sequences of pieces. A subscript is written from left to right, and each group looks
for its own runs; since the groups share no name, their runs do not overlap, and what is written are
loop indices in brackets, single names, and runs of a group in parentheses.

* `runsFrom_run`, `runsFrom_cons`, `runsFrom_append`: one step of the search of a group;
* `Cut`: the pieces of some names, found from left to right;
* `Cut.subscript_eq`: they are what is written.
-/

namespace TensorKernel.Gemm

/-! ### Runs of a group -/

section
variable {part : Indices} {names rest : List Char} {position : Nat}

/-- The starts of the runs of a group, for names of which the first one has the given position. -/
def runsFrom (part : Indices) (position : Nat) (names : List Char) : List Nat :=
  if part.size < 2 then [] else runStarts part part.size position 0 names

theorem startsRun_iff {width : Nat} : startsRun part width names = true ↔
    ∃ run rest, names = run ++ rest ∧ run.length = width ∧ ∀ c ∈ run, c ∈ part.names := by
  rw [startsRun, Bool.and_eq_true, decide_eq_true_iff, List.all_eq_true]
  simp only [Indices.contains_iff]
  constructor
  · rintro ⟨long, all⟩
    exact ⟨_, _, (List.take_append_drop width names).symm, List.length_take_of_le long, all⟩
  · rintro ⟨run, rest, rfl, rfl, all⟩
    rw [List.take_left]
    exact ⟨by simp, all⟩

theorem runStarts_skip {width : Nat} (names rest : List Char) (position : Nat) :
    runStarts part width position names.length (names ++ rest) =
      runStarts part width (position + names.length) 0 rest := by
  induction names generalizing position with
  | nil => rfl
  | cons c names ih =>
    rw [List.length_cons, List.cons_append, runStarts, ih, Nat.add_right_comm, Nat.add_assoc]

theorem le_of_mem_runStarts {width skip q : Nat} (h : q ∈ runStarts part width position skip names) :
    position ≤ q := by
  induction names generalizing position skip with
  | nil => simp [runStarts] at h
  | cons c names ih =>
    cases skip with
    | succ skip =>
      rw [runStarts] at h
      have := ih h
      omega
    | zero =>
      rw [runStarts] at h
      split at h
      · rcases List.mem_cons.mp h with rfl | later
        · exact Nat.le_refl _
        · have := ih later
          omega
      · have := ih h
        omega

theorem of_mem_runsFrom {q : Nat} (h : q ∈ runsFrom part position names) :
    position ≤ q ∧ 2 ≤ part.size := by
  unfold runsFrom at h
  split at h
  · cases h
  · next several => exact ⟨le_of_mem_runStarts h, Nat.not_lt.mp several⟩

/-- A run is found where it starts, and the search goes on behind it. -/
theorem runsFrom_run (several : 2 ≤ part.size) (length : names.length = part.size)
    (all : ∀ c ∈ names, c ∈ part.names) : runsFrom part position (names ++ rest) =
      position :: runsFrom part (position + part.size) rest := by
  have starts : startsRun part part.size (names ++ rest) = true :=
    startsRun_iff.mpr ⟨names, rest, rfl, length, all⟩
  cases names with
  | nil =>
    rw [List.length_nil] at length
    omega
  | cons c names =>
    rw [List.cons_append] at starts
    have skip : part.size - 1 = names.length := by rw [← length, List.length_cons, Nat.add_sub_cancel]
    rw [runsFrom, runsFrom, if_neg (by omega), if_neg (by omega), List.cons_append, runStarts,
      if_pos starts, skip, runStarts_skip, ← length, List.length_cons, Nat.add_assoc,
      Nat.add_comm 1]

theorem runsFrom_cons {c : Char}
    (free : 2 ≤ part.size → startsRun part part.size (c :: names) = false) :
    runsFrom part position (c :: names) = runsFrom part (position + 1) names := by
  unfold runsFrom
  split
  · rfl
  · next several => rw [runStarts, free (Nat.not_lt.mp several), if_neg (by simp)]

/-- Names outside a group start no run of it. -/
theorem runsFrom_append (apart : ∀ c ∈ names, c ∉ part.names) :
    runsFrom part position (names ++ rest) = runsFrom part (position + names.length) rest := by
  induction names generalizing position with
  | nil => rfl
  | cons c names ih =>
    obtain ⟨first, others⟩ := List.forall_mem_cons.mp apart
    have free (several : 2 ≤ part.size) :
        startsRun part part.size (c :: (names ++ rest)) = false := by
      rw [← Bool.not_eq_true, startsRun_iff]
      rintro ⟨run, rest, split, length, all⟩
      cases run with
      | nil =>
        rw [List.length_nil] at length
        omega
      | cons d run =>
        obtain rfl : c = d := (List.cons.inj split).1
        exact first (all c List.mem_cons_self)
    rw [List.cons_append, runsFrom_cons free, ih others, List.length_cons, Nat.add_assoc,
      Nat.add_comm 1]

end

/-! ### Pieces of a subscript -/

inductive Piece where
  /-- A loop index. -/
  | looped (name : Char)
  /-- An index of a group that is not written as one. -/
  | plain (name : Char)
  /-- A group that is written as one. -/
  | fused (names : List Char)
deriving DecidableEq

namespace Piece

def names : Piece → List Char
  | looped name | plain name => [name]
  | fused names => names

def text : Piece → List Char
  | looped name => ['[', name, ']']
  | plain name => [name]
  | fused names => '(' :: (names ++ [')'])

def single (groups : List Indices) (name : Char) : Piece :=
  if groups.any (·.contains name) then plain name else looped name

theorem names_single (groups : List Indices) (name : Char) : (single groups name).names = [name] := by
  unfold single
  split <;> rfl

theorem text_single (groups : List Indices) (name : Char) :
    (single groups name).text = signed groups name := by
  unfold single signed
  split <;> rfl

end Piece

/-- The pieces of some names, from left to right: a run of a group where one starts, and else a
single name. -/
inductive Cut (groups : List Indices) : List Char → List Piece → Prop
  | nil : Cut groups [] []
  | run {part : Indices} {names rest : List Char} {pieces : List Piece} (mem : part ∈ groups)
    (several : 2 ≤ part.size) (length : names.length = part.size)
    (all : ∀ c ∈ names, c ∈ part.names) (others : Cut groups rest pieces) :
    Cut groups (names ++ rest) (.fused names :: pieces)
  | single {name : Char} {rest : List Char} {pieces : List Piece}
    (free : ∀ part ∈ groups, 2 ≤ part.size → startsRun part part.size (name :: rest) = false)
    (others : Cut groups rest pieces) :
    Cut groups (name :: rest) (.single groups name :: pieces)

theorem exists_cut (groups : List Indices) (names : List Char) :
    ∃ pieces, Cut groups names pieces := by
  induction length : names.length using Nat.strongRecOn generalizing names with
  | ind n ih =>
    cases names with
    | nil => exact ⟨[], .nil⟩
    | cons c names =>
      by_cases found : ∃ part ∈ groups, 2 ≤ part.size ∧
          startsRun part part.size (c :: names) = true
      · obtain ⟨part, mem, several, starts⟩ := found
        obtain ⟨run, rest, split, size, all⟩ := startsRun_iff.mp starts
        have shorter : rest.length < n := by
          rw [split, List.length_append] at length
          omega
        obtain ⟨pieces, others⟩ := ih _ shorter rest rfl
        rw [split]
        exact ⟨_, .run mem several size all others⟩
      · have free : ∀ part ∈ groups, 2 ≤ part.size →
            startsRun part part.size (c :: names) = false := by
          intro part mem several
          rw [← Bool.not_eq_true]
          exact fun starts => found ⟨part, mem, several, starts⟩
        obtain ⟨pieces, others⟩ := ih names.length (by rw [← length]; simp) names rfl
        exact ⟨_, .single free others⟩

/-! ### What is written -/

/-- Names with the marks at their positions. -/
def written (groups : List Indices) (opens closes : List Nat) (position : Nat) (names : List Char) :
    List Char :=
  (names.zipIdx position).flatMap fun (name, position) =>
    (if opens.contains position then ['('] else []) ++ signed groups name ++
      (if closes.contains position then [')'] else [])

section
variable {groups : List Indices} {names rest : List Char} {position : Nat}
  {opens closes opens' closes' : List Nat}

theorem written_cons (c : Char) : written groups opens closes position (c :: names) =
    (if position ∈ opens then ['('] else []) ++ signed groups c ++
      (if position ∈ closes then [')'] else []) ++
        written groups opens closes (position + 1) names := by
  simp [written]

theorem written_append : written groups opens closes position (names ++ rest) =
    written groups opens closes position names ++
      written groups opens closes (position + names.length) rest := by
  rw [written, List.zipIdx_append, List.flatMap_append]
  rfl

/-- Only marks at the positions of the names matter. -/
theorem written_congr
    (same : ∀ q, position ≤ q → (q ∈ opens ↔ q ∈ opens') ∧ (q ∈ closes ↔ q ∈ closes')) :
    written groups opens closes position names = written groups opens' closes' position names := by
  induction names generalizing position with
  | nil => rfl
  | cons c names ih =>
    have here := same position (Nat.le_refl _)
    rw [written_cons, written_cons, ih fun q hq => same q (by omega), if_congr here.1 rfl rfl,
      if_congr here.2 rfl rfl]

theorem written_closing (some' : names ≠ []) (own : ∀ c ∈ names, signed groups c = [c])
    (opening : ∀ q, position ≤ q → q < position + names.length → q ∉ opens)
    (closing : ∀ q, position ≤ q → q < position + names.length →
      (q ∈ closes ↔ q + 1 = position + names.length)) :
    written groups opens closes position names = names ++ [')'] := by
  induction names generalizing position with
  | nil => exact absurd rfl some'
  | cons c names ih =>
    obtain ⟨first, others⟩ := List.forall_mem_cons.mp own
    simp only [List.length_cons] at opening closing
    have notOpened := opening position (Nat.le_refl _) (by omega)
    have closed := closing position (Nat.le_refl _) (by omega)
    rw [written_cons, first, if_neg notOpened, List.nil_append, List.cons_append]
    cases names with
    | nil =>
      rw [if_pos (closed.mpr rfl)]
      rfl
    | cons d names =>
      have notClosed : position ∉ closes := by
        rw [closed, List.length_cons]
        omega
      rw [if_neg notClosed, ih (by simp) others]
      · rfl
      · intro q above below
        exact opening q (by omega) (by omega)
      · intro q above below
        rw [closing q (by omega) (by omega)]
        omega

/-- A run of two or more names with a mark before the first and a mark behind the last. -/
theorem written_run (several : 2 ≤ names.length) (own : ∀ c ∈ names, signed groups c = [c])
    (opening : ∀ q, position ≤ q → q < position + names.length → (q ∈ opens ↔ q = position))
    (closing : ∀ q, position ≤ q → q < position + names.length →
      (q ∈ closes ↔ q + 1 = position + names.length)) :
    written groups opens closes position names = '(' :: (names ++ [')']) := by
  match names, several with
  | c :: d :: names, _ =>
    obtain ⟨first, others⟩ := List.forall_mem_cons.mp own
    simp only [List.length_cons] at opening closing
    have opened : position ∈ opens := (opening _ (Nat.le_refl _) (by omega)).mpr rfl
    have notClosed : position ∉ closes := by
      rw [closing _ (Nat.le_refl _) (by omega)]
      omega
    rw [written_cons, first, if_pos opened, if_neg notClosed, written_closing (by simp) others]
    · rfl
    · intro q above below
      rw [List.length_cons] at below
      rw [opening q (by omega) (by omega)]
      omega
    · intro q above below
      rw [List.length_cons] at below ⊢
      rw [closing q (by omega) (by omega)]
      omega

end

/-- The marks of all runs: `shift` is how far behind the start of a run of a group its mark is. -/
def marksFrom (groups : List Indices) (shift : Indices → Nat) (position : Nat) (names : List Char) :
    List Nat :=
  groups.flatMap fun part => (runsFrom part position names).map (· + shift part)

/-- No two groups share a name. -/
def Apart (groups : List Indices) : Prop :=
  ∀ x ∈ groups, ∀ y ∈ groups, x = y ∨ ∀ c ∈ x.names, c ∉ y.names

section
variable {groups : List Indices} {names rest : List Char} {position : Nat}
  {shift : Indices → Nat} {pieces : List Piece}

theorem mem_marksFrom {q : Nat} : q ∈ marksFrom groups shift position names ↔
    ∃ part ∈ groups, ∃ start ∈ runsFrom part position names, start + shift part = q := by
  simp [marksFrom]

theorem le_of_mem_marksFrom {q : Nat} (h : q ∈ marksFrom groups shift position names) :
    position ≤ q := by
  obtain ⟨part, -, start, run, rfl⟩ := mem_marksFrom.mp h
  have := (of_mem_runsFrom run).1
  omega

/-- A run of one group has one mark, and no other group has one in it. -/
theorem mem_marksFrom_run (apart : Apart groups) {part : Indices} (mem : part ∈ groups)
    (several : 2 ≤ part.size) (length : names.length = part.size)
    (all : ∀ c ∈ names, c ∈ part.names) {q : Nat} :
    q ∈ marksFrom groups shift position (names ++ rest) ↔
      q = position + shift part ∨ q ∈ marksFrom groups shift (position + names.length) rest := by
  have own : runsFrom part position (names ++ rest) =
      position :: runsFrom part (position + names.length) rest := by
    rw [runsFrom_run several length all, length]
  have others {other : Indices} (there : other ∈ groups) (different : other ≠ part) :
      runsFrom other position (names ++ rest) = runsFrom other (position + names.length) rest := by
    refine runsFrom_append fun c hc => ?_
    exact (apart part mem other there).resolve_left (Ne.symm different) c (all c hc)
  rw [mem_marksFrom, mem_marksFrom]
  constructor
  · rintro ⟨other, there, start, run, rfl⟩
    by_cases same : other = part
    · subst same
      rw [own] at run
      rcases List.mem_cons.mp run with rfl | later
      · exact .inl rfl
      · exact .inr ⟨other, there, start, later, rfl⟩
    · rw [others there same] at run
      exact .inr ⟨other, there, start, run, rfl⟩
  · rintro (rfl | ⟨other, there, start, run, rfl⟩)
    · exact ⟨part, mem, position, own ▸ List.mem_cons_self, rfl⟩
    · refine ⟨other, there, start, ?_, rfl⟩
      by_cases same : other = part
      · subst same
        rw [own]
        exact List.mem_cons_of_mem _ run
      · rwa [others there same]

theorem signed_of_mem {part : Indices} (mem : part ∈ groups) {c : Char} (hc : c ∈ part.names) :
    signed groups c = [c] := by
  refine if_pos (List.any_eq_true.mpr ⟨part, mem, ?_⟩)
  rwa [Indices.contains_iff]

/-- What is written from left to right are the pieces. -/
theorem Cut.written_eq (apart : Apart groups) (cut : Cut groups names pieces) (position : Nat) :
    written groups (marksFrom groups (fun _ => 0) position names)
      (marksFrom groups (fun part => part.size - 1) position names) position names =
        pieces.flatMap Piece.text := by
  induction cut generalizing position with
  | nil => rfl
  | @run part names rest pieces mem several length all others ih =>
    have marks {shift : Indices → Nat} {q : Nat} :
        q ∈ marksFrom groups shift position (names ++ rest) ↔
          q = position + shift part ∨ q ∈ marksFrom groups shift (position + names.length) rest :=
      mem_marksFrom_run apart mem several length all
    have behind {shift : Indices → Nat} {q : Nat} (below : q < position + names.length) :
        q ∉ marksFrom groups shift (position + names.length) rest := by
      intro later
      have := le_of_mem_marksFrom later
      omega
    rw [written_append, List.flatMap_cons, ← ih]
    refine congrArg₂ (· ++ ·) (written_run ?_ ?_ ?_ ?_) (written_congr fun q above => ⟨?_, ?_⟩)
    · omega
    · exact fun c hc => signed_of_mem mem (all c hc)
    · intro q above below
      rw [marks, or_iff_left (behind below), Nat.add_zero]
    · intro q above below
      rw [marks, or_iff_left (behind below)]
      omega
    · rw [marks, or_iff_right (by omega)]
    · rw [marks, or_iff_right (by omega)]
  | @single name rest pieces free others ih =>
    have marks (shift : Indices → Nat) : marksFrom groups shift position (name :: rest) =
        marksFrom groups shift (position + 1) rest := by
      unfold marksFrom
      refine List.flatMap_congr fun part mem => ?_
      rw [runsFrom_cons (free part mem)]
    have unmarked (shift : Indices → Nat) : position ∉ marksFrom groups shift (position + 1) rest := by
      intro later
      have := le_of_mem_marksFrom later
      omega
    rw [marks, marks, written_cons, if_neg (unmarked _), if_neg (unmarked _), ih, List.flatMap_cons,
      Piece.text_single, List.nil_append, List.append_nil]

theorem Cut.subscript_eq {i : Indices} (apart : Apart groups) (cut : Cut groups i.names pieces) :
    subscript groups i = pieces.flatMap Piece.text := by
  have opens : marksFrom groups (fun _ => 0) 0 i.names = groups.flatMap (groupRuns i.names) := by
    simp only [marksFrom, Nat.add_zero, List.map_id']
    rfl
  rw [← cut.written_eq apart 0, opens]
  rfl

end

end TensorKernel.Gemm
