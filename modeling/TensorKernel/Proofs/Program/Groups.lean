import TensorKernel.Proofs.Program.Analysis

/-!
The groups of a program. They are collected from the tensors one after the other, in the order of
their full names, and one tensor of each full name is looked at. Neither matters: a full name tells
the base name and the member, and what is collected depends on which members are in use, not on
which of them comes first.

* `InUse`, `Mixed`, `Listed`: what the tensors of a program say of a base name;
* `Describes`, `Describes.addToGroups`, `foldlM_describes`: one tensor, and all of them;
* `inUse_globals`, `groups_of_variables`: the tensors that are looked at stand for all;
* `groups_exact`: when groups are found, and which.
-/

namespace TensorKernel.Program

/-- A tensor has the base name and the place in its group, or stands alone. -/
def InUse (tensors : List Tensor) (base : String) (group : Option Nat) : Prop :=
  ∃ t ∈ tensors, t.base = base ∧ t.group = group

/-- A base name is that of a tensor that stands alone, and of a member of a group. -/
def Mixed (tensors : List Tensor) (base : String) : Prop :=
  InUse tensors base none ∧ ∃ member, InUse tensors base (some member)

/-- What is to be listed under a base name: nothing if its tensors stand alone, else the members in
use, ascending. -/
def Listed (tensors : List Tensor) (base : String) : Option (List Nat) → Prop
  | none => InUse tensors base none ∧ ∀ member, ¬InUse tensors base (some member)
  | some members => members ≠ [] ∧ members.Pairwise (· < ·) ∧
      (∀ member, member ∈ members ↔ InUse tensors base (some member)) ∧ ¬InUse tensors base none

section
variable {ts us : List Tensor} {t : Tensor} {base : String} {group : Option Nat}

theorem inUse_concat : InUse (ts ++ [t]) base group ↔
    InUse ts base group ∨ t.base = base ∧ t.group = group := by
  simp only [InUse, List.mem_append, List.mem_singleton, or_and_right, exists_or, exists_eq_left]

theorem listed_congr (same : ∀ group, InUse us base group ↔ InUse ts base group)
    {members : Option (List Nat)} : Listed us base members ↔ Listed ts base members := by
  cases members <;> simp only [Listed, same]

/-- What is listed under a base name is in use. -/
theorem Listed.inUse {members : Option (List Nat)} (h : Listed ts base members) :
    ∃ group, InUse ts base group := by
  cases members with
  | none => exact ⟨none, h.1⟩
  | some members =>
    obtain ⟨some_member, -, exact_members, -⟩ := h
    obtain ⟨member, mem⟩ := List.exists_mem_of_ne_nil members some_member
    exact ⟨some member, (exact_members member).mp mem⟩

/-- There is one thing to be listed under a base name. -/
theorem Listed.unique {members others : Option (List Nat)} (h : Listed ts base members)
    (k : Listed ts base others) : members = others := by
  cases members with
  | none =>
    cases others with
    | none => rfl
    | some => exact absurd h.1 k.2.2.2
  | some members =>
    cases others with
    | none => exact absurd k.1 h.2.2.2
    | some others =>
      obtain ⟨-, ascending, exact_members, -⟩ := h
      obtain ⟨-, ascending', exact_others, -⟩ := k
      refine congrArg some (List.Perm.eq_of_pairwise (fun _ _ _ _ lt gt => ?_) ascending ascending' ?_)
      · exact absurd (lt.trans gt) (lt_irrefl _)
      · rw [List.perm_ext_iff_of_nodup (ascending.imp ne_of_lt) (ascending'.imp ne_of_lt)]
        exact fun member => (exact_members member).trans (exact_others member).symm

theorem Listed.not_mixed {members : Option (List Nat)} (h : Listed ts base members) :
    ¬Mixed ts base := by
  rintro ⟨alone, member, grouped⟩
  cases members with
  | none => exact h.2 member grouped
  | some => exact h.2.2.2 alone

end

/-! ### One tensor after the other -/

theorem mem_insertMember {member m : Nat} {members : List Nat} :
    m ∈ insertMember member members ↔ m = member ∨ m ∈ members := by
  induction members with
  | nil => simp [insertMember]
  | cons first rest ih =>
    rw [insertMember]
    split
    · exact List.mem_cons
    · split
      · next same => simp [same]
      · rw [List.mem_cons, ih, List.mem_cons, or_left_comm]

theorem ascending_insertMember {member : Nat} {members : List Nat}
    (h : members.Pairwise (· < ·)) : (insertMember member members).Pairwise (· < ·) := by
  induction members with
  | nil => exact List.pairwise_singleton _ _
  | cons first rest ih =>
    obtain ⟨least, ascending⟩ := List.pairwise_cons.mp h
    rw [insertMember]
    split
    · next before =>
      refine List.pairwise_cons.mpr ⟨fun m hm => ?_, h⟩
      rcases List.mem_cons.mp hm with rfl | hm
      · exact before
      · exact before.trans (least m hm)
    · split
      · exact h
      · refine List.pairwise_cons.mpr ⟨fun m hm => ?_, ih ascending⟩
        rcases mem_insertMember.mp hm with rfl | hm
        · omega
        · exact least m hm

def join (base : String) : Option (List Nat) → Option Nat → Result (Option (List Nat))
  | some members, some member => pure (some (insertMember member members))
  | none, none => pure none
  | some _, none | none, some _ => .error (.grouping base)

section
variable {base : String} {group : Option Nat}

theorem addToGroups_of_new {gs : Groups} (new : base ∉ gs.map Prod.fst) :
    addToGroups base group gs = .ok (gs ++ [(base, group.map fun member => [member])]) := by
  induction gs with
  | nil => rfl
  | cons entry gs ih =>
    obtain ⟨other, members⟩ := entry
    rw [List.map_cons, List.mem_cons, not_or] at new
    simp only [addToGroups, if_neg (Ne.symm new.1), ih new.2]
    rfl

theorem addToGroups_of_known {front back : Groups} {members : Option (List Nat)}
    (new : base ∉ front.map Prod.fst) :
    addToGroups base group (front ++ (base, members) :: back) = (do
      pure (front ++ (base, ← join base members group) :: back)) := by
  induction front with
  | nil =>
    cases members <;> cases group <;> simp [addToGroups, join]
  | cons entry front ih =>
    obtain ⟨other, _⟩ := entry
    rw [List.map_cons, List.mem_cons, not_or] at new
    simp only [List.cons_append, addToGroups, if_neg (Ne.symm new.1), ih new.2]
    cases join base members group <;> rfl

end

/-- Groups that list each base name of the tensors once, as it is to be listed. -/
structure Describes (tensors : List Tensor) (gs : Groups) : Prop where
  distinct : (gs.map Prod.fst).Nodup
  listed : ∀ base members, (base, members) ∈ gs → Listed tensors base members
  covers : ∀ t ∈ tensors, t.base ∈ gs.map Prod.fst

section
variable {ts us : List Tensor} {gs : Groups}

theorem Describes.mem_iff (h : Describes ts gs) {base : String} {members : Option (List Nat)} :
    (base, members) ∈ gs ↔ Listed ts base members := by
  refine ⟨h.listed base members, fun listed => ?_⟩
  obtain ⟨_, t, ht, rfl, -⟩ := listed.inUse
  obtain ⟨⟨_, others⟩, entry, rfl⟩ := List.mem_map.mp (h.covers t ht)
  rwa [listed.unique (h.listed _ others entry)]

theorem Describes.not_mixed (h : Describes ts gs) (base : String) : ¬Mixed ts base := by
  intro mixed
  obtain ⟨t, ht, rfl, -⟩ := mixed.1
  obtain ⟨⟨_, members⟩, entry, rfl⟩ := List.mem_map.mp (h.covers t ht)
  exact (h.listed _ members entry).not_mixed mixed

/-- A tensor either fits to those before it, and is listed with them, or is in use the other way. -/
theorem listed_join {t : Tensor} {members : Option (List Nat)} (h : Listed ts t.base members) :
    (∃ joined, join t.base members t.group = .ok joined ∧ Listed (ts ++ [t]) t.base joined) ∨
      join t.base members t.group = .error (.grouping t.base) ∧ Mixed (ts ++ [t]) t.base := by
  cases members with
  | none =>
    obtain ⟨alone, ungrouped⟩ := h
    cases group : t.group with
    | none =>
      refine .inl ⟨none, rfl, inUse_concat.mpr (.inl alone), fun member used => ?_⟩
      rcases inUse_concat.mp used with used | ⟨-, grouped⟩
      · exact ungrouped member used
      · cases group.symm.trans grouped
    | some member =>
      exact .inr ⟨rfl, inUse_concat.mpr (.inl alone), member, inUse_concat.mpr (.inr ⟨rfl, group⟩)⟩
  | some members =>
    obtain ⟨some_member, ascending, exact_members, grouped⟩ := h
    cases group : t.group with
    | none =>
      obtain ⟨member, mem⟩ := List.exists_mem_of_ne_nil members some_member
      exact .inr ⟨rfl, inUse_concat.mpr (.inr ⟨rfl, group⟩), member,
        inUse_concat.mpr (.inl ((exact_members member).mp mem))⟩
    | some member =>
      refine .inl ⟨_, rfl, ?_, ascending_insertMember ascending, fun m => ?_, fun alone => ?_⟩
      · exact List.ne_nil_of_mem (mem_insertMember.mpr (.inl rfl))
      · rw [mem_insertMember, exact_members, inUse_concat, group, Option.some.injEq, or_comm]
        simp only [true_and, eq_comm]
      · rcases inUse_concat.mp alone with alone | ⟨-, ungrouped⟩
        · exact grouped alone
        · cases group.symm.trans ungrouped

/-- The first tensor of a base name is listed alone. -/
theorem listed_new {t : Tensor} (new : ∀ group, ¬InUse ts t.base group) :
    Listed (ts ++ [t]) t.base (t.group.map fun member => [member]) := by
  have used (group : Option Nat) : InUse (ts ++ [t]) t.base group ↔ t.group = group := by
    rw [inUse_concat, or_iff_right (new group)]
    simp only [true_and]
  cases group : t.group with
  | none => exact ⟨(used none).mpr group, fun member h => by simpa [group] using (used _).mp h⟩
  | some member =>
    refine ⟨List.cons_ne_nil member [], List.pairwise_singleton _ _, fun m => ?_, fun h => ?_⟩
    · rw [List.mem_singleton, used, group, Option.some.injEq, eq_comm]
    · simpa [group] using (used _).mp h

section
variable {t : Tensor} (h : Describes ts gs)
include h

/-- Other base names are listed as they were before one more tensor. -/
theorem Describes.listed_other {base : String} {members : Option (List Nat)}
    (entry : (base, members) ∈ gs) (differs : base ≠ t.base) :
    Listed (ts ++ [t]) base members := by
  refine (listed_congr fun group => ?_).mpr (h.listed base members entry)
  rw [inUse_concat]
  exact or_iff_left fun same => differs same.1.symm

/-- A tensor of a new base name is listed at the end. -/
theorem Describes.concat (new : t.base ∉ gs.map Prod.fst) :
    Describes (ts ++ [t]) (gs ++ [(t.base, t.group.map fun member => [member])]) where
  distinct := by
    rw [List.map_append, List.nodup_append]
    refine ⟨h.distinct, List.nodup_singleton _, ?_⟩
    rintro base mem _ single rfl
    rw [List.mem_singleton.mp single] at mem
    exact new mem
  listed base members mem := by
    rcases List.mem_append.mp mem with mem | mem
    · refine h.listed_other mem ?_
      rintro rfl
      exact new (List.mem_map_of_mem mem)
    · cases List.mem_singleton.mp mem
      refine listed_new ?_
      rintro group ⟨u, hu, same, -⟩
      exact new (same ▸ h.covers u hu)
  covers u hu := by
    rw [List.map_append, List.mem_append]
    rcases List.mem_append.mp hu with hu | hu
    · exact .inl (h.covers u hu)
    · exact .inr (by simp [List.mem_singleton.mp hu])

/-- One more tensor is listed, unless its base name is then in use both ways. -/
theorem Describes.addToGroups :
    (∃ gs', addToGroups t.base t.group gs = .ok gs' ∧ Describes (ts ++ [t]) gs') ∨
      addToGroups t.base t.group gs = .error (.grouping t.base) ∧ Mixed (ts ++ [t]) t.base := by
  by_cases known : t.base ∈ gs.map Prod.fst
  case neg => exact .inl ⟨_, addToGroups_of_new known, h.concat known⟩
  obtain ⟨⟨_, members⟩, entry, rfl⟩ := List.mem_map.mp known
  obtain ⟨front, back, rfl⟩ := List.append_of_mem entry
  have distinct := h.distinct
  rw [List.map_append, List.map_cons, List.nodup_middle, List.nodup_cons, List.mem_append,
    not_or] at distinct
  obtain ⟨⟨newFront, newBack⟩, -⟩ := distinct
  rw [addToGroups_of_known newFront]
  rcases listed_join (h.listed _ members entry) with ⟨joined, done, listed⟩ | ⟨failed, mixed⟩
  · refine .inl ⟨front ++ (t.base, joined) :: back, by rw [done]; rfl, ?_, ?_, ?_⟩
    · simpa using h.distinct
    · intro base others mem
      rw [List.mem_append, List.mem_cons] at mem
      rcases mem with mem | same | mem
      · refine h.listed_other (by simp [mem]) ?_
        rintro rfl
        exact newFront (List.mem_map.mpr ⟨_, mem, rfl⟩)
      · cases same
        exact listed
      · refine h.listed_other (by simp [mem]) ?_
        rintro rfl
        exact newBack (List.mem_map.mpr ⟨_, mem, rfl⟩)
    · intro u hu
      rcases List.mem_append.mp hu with hu | hu
      · simpa using h.covers u hu
      · simp [List.mem_singleton.mp hu]
  · exact .inr ⟨by rw [failed]; rfl, mixed⟩

end

/-- All tensors are listed, unless a base name is in use both ways. -/
theorem foldlM_describes (h : Describes ts gs) (us : List Tensor) :
    (∃ gs', us.foldlM (fun gs t => addToGroups t.base t.group gs) gs = .ok gs' ∧
        Describes (ts ++ us) gs') ∨
      ∃ base, us.foldlM (fun gs t => addToGroups t.base t.group gs) gs = .error (.grouping base) ∧
        Mixed (ts ++ us) base := by
  induction us generalizing ts gs with
  | nil => exact .inl ⟨gs, rfl, by simpa using h⟩
  | cons t us ih =>
    rw [List.foldlM_cons, List.append_cons]
    rcases h.addToGroups (t := t) with ⟨gs', done, describes⟩ | ⟨failed, alone, member, grouped⟩
    · rw [done]
      exact ih describes
    · have later {group : Option Nat} (used : InUse (ts ++ [t]) t.base group) :
          InUse (ts ++ [t] ++ us) t.base group := by
        obtain ⟨u, hu, same⟩ := used
        exact ⟨u, List.mem_append_left us hu, same⟩
      rw [failed]
      exact .inr ⟨t.base, rfl, later alone, member, later grouped⟩

end

/-! ### The tensors of a program -/

def tensors (p : Program) : List Tensor := (variablesOf p.actions).filterMap Variable.tensor

section
variable {p q : Program}

theorem mem_globals_of_mem {v : Variable} (hv : v ∈ variablesOf p.actions)
    (isGlobal : v.isGlobal = true) : ∃ w ∈ p.globals, w.name = v.name := by
  obtain ⟨w, hw, same⟩ := exists_mem_eraseDupsBy (r := fun v w : Variable => v.name = w.name)
    (by simp) (List.mem_filter.mpr ⟨hv, isGlobal⟩)
  exact ⟨w, List.mem_mergeSort.mpr hw, (of_decide_eq_true same).symm⟩

/-- No group is lost where one tensor of each full name is looked at. -/
theorem inUse_globals (named : p.Named) {base : String} {group : Option Nat} :
    InUse (p.globals.filterMap Variable.tensor) base group ↔ InUse p.tensors base group := by
  constructor
  · rintro ⟨t, ht, same⟩
    obtain ⟨v, hv, carries⟩ := List.mem_filterMap.mp ht
    exact ⟨t, List.mem_filterMap.mpr ⟨v, mem_variablesOf_of_mem_globals hv, carries⟩, same⟩
  · rintro ⟨t, ht, rfl, rfl⟩
    obtain ⟨v, hv, carries⟩ := List.mem_filterMap.mp ht
    obtain ⟨name, valid⟩ := named v hv t carries
    obtain ⟨w, hw, same⟩ := mem_globals_of_mem hv (by simp [Variable.isGlobal, carries])
    obtain ⟨u, carries', name', valid'⟩ := named.globals hw
    exact ⟨u, List.mem_filterMap.mpr ⟨w, hw, carries'⟩,
      Tensor.name_inj valid' valid (name'.symm.trans (same.trans name))⟩

/-- The groups depend on which variables occur, not on where. -/
theorem groups_of_variables (named : p.Named)
    (same : ∀ v, v ∈ variablesOf q.actions ↔ v ∈ variablesOf p.actions) : q.groups = p.groups := by
  have named' : q.Named := fun v hv => named v ((same v).mp hv)
  refine groups_congr (keys_firstOfEach fun x => ?_) (fun _ hv => named'.globals hv)
    (fun _ hv => named.globals hv) []
  simp only [List.mem_filter]
  exact exists_congr fun v => and_congr_left' (and_congr_left' (same v))

/-- Groups are found exactly if no base name is in use both with a group and without; if one is, the
error names such a base name. Each base name in use is listed then, and no other, with nothing or
with all members in use. The order of the actions does not matter. Two tensors have one full name
exactly if they have one base name and one place in its group, so that one tensor of each full name
stands for all. -/
theorem groups_exact (p : Program) (named : p.Named) :
    ((∃ e, p.groups = .error e) ↔ ∃ base, Mixed p.tensors base) ∧
    (∀ e, p.groups = .error e → ∃ base, e = .grouping base ∧ Mixed p.tensors base) ∧
    (∀ gs, p.groups = .ok gs → (gs.map Prod.fst).Nodup ∧
      ∀ base members, (base, members) ∈ gs ↔ Listed p.tensors base members) ∧
    (∀ q : Program, q.actions.Perm p.actions → q.groups = p.groups) ∧
    (∀ s t : Tensor, isIdentifier s.base = true → isIdentifier t.base = true →
      (s.name = t.name ↔ s.base = t.base ∧ s.group = t.group)) ∧
    ∀ base group, InUse (p.globals.filterMap Variable.tensor) base group ↔
      InUse p.tensors base group := by
  let used := p.globals.filterMap Variable.tensor
  have inUse {base : String} {group : Option Nat} :
      InUse used base group ↔ InUse p.tensors base group := inUse_globals named
  have mixed {base : String} : Mixed used base ↔ Mixed p.tensors base := by
    simp only [Mixed, inUse]
  have start : Describes [] [] := ⟨List.nodup_nil, by simp, by simp⟩
  have all := foldlM_describes start used
  rw [List.nil_append] at all
  refine ⟨?_, ?_, ?_, fun q perm => groups_of_variables named fun v => ?_, ?_,
    fun _ _ => inUse⟩
  · rcases all with ⟨gs, done, describes⟩ | ⟨base, failed, both⟩
    · refine iff_of_false ?_ ?_
      · rintro ⟨e, failed⟩
        cases done.symm.trans failed
      · rintro ⟨base, both⟩
        exact describes.not_mixed base (mixed.mpr both)
    · exact iff_of_true ⟨_, failed⟩ ⟨base, mixed.mp both⟩
  · intro e error
    rcases all with ⟨gs, done, -⟩ | ⟨base, failed, both⟩
    · cases done.symm.trans error
    · exact ⟨base, Except.error.inj (error.symm.trans failed), mixed.mp both⟩
  · intro gs ok
    rcases all with ⟨gs', done, describes⟩ | ⟨base, failed, -⟩
    · obtain rfl := Except.ok.inj (ok.symm.trans done)
      refine ⟨describes.distinct, fun base members => ?_⟩
      rw [describes.mem_iff]
      exact listed_congr fun group => inUse
    · cases ok.symm.trans failed
  · simp only [mem_variablesOf, perm.mem_iff]
  · intro s t hs ht
    refine ⟨Tensor.name_inj hs ht, fun ⟨base, group⟩ => ?_⟩
    rw [Tensor.name, Tensor.name, base, group]

end

/-- A member of a group is assigned, and then another tensor of its base name. -/
def update (group : Option Nat) : Program :=
  let tensor (base : String) (group : Option Nat) : Variable :=
    let t : Tensor := ⟨base, group, [2], .dense [2], .full [2]⟩
    ⟨t.name, false, t.layout, none, some t⟩
  .ofActions [⟨tensor "Q" (some 2), .copy (tensor "A" none), false, none⟩,
    ⟨tensor "Q" group, .copy (tensor "Q" (some 2)), false, none⟩]

theorem inUse_update {group other : Option Nat} {base : String} :
    InUse (update other).tensors base group ↔
      base = "Q" ∧ (group = some 2 ∨ group = other) ∨ base = "A" ∧ group = none := by
  simp only [InUse, tensors, update, actions_ofActions, variablesOf, Term.inputs,
    List.flatMap_cons, List.flatMap_nil, List.cons_append, List.nil_append, List.filterMap_cons,
    List.filterMap_nil, List.mem_cons, List.not_mem_nil, or_false, or_and_right, exists_or,
    exists_eq_left]
  grind

/-- With another member both are listed, with a tensor that stands alone nothing is. -/
theorem groups_exact_update : (update (some 0)).Named ∧ (update none).Named ∧
    (∃ gs, (update (some 0)).groups = .ok gs ∧ ("Q", some [0, 2]) ∈ gs ∧ ("A", none) ∈ gs) ∧
    (update none).groups = .error (.grouping "Q") := by
  have named : (update (some 0)).Named := by decide
  have named' : (update none).Named := by decide
  refine ⟨named, named', ?_, ?_⟩
  · obtain ⟨fails, -, exact_groups, -⟩ := groups_exact _ named
    cases found : (update (some 0)).groups with
    | error e =>
      obtain ⟨base, alone, member, grouped⟩ := fails.mp ⟨e, found⟩
      rw [inUse_update] at alone grouped
      grind
    | ok gs =>
      obtain ⟨-, entries⟩ := exact_groups gs found
      refine ⟨gs, rfl, ?_, ?_⟩
      · rw [entries, Listed]
        simp only [inUse_update]
        refine ⟨by decide, by decide, by grind, by grind⟩
      · rw [entries, Listed]
        simp only [inUse_update]
        exact ⟨by grind, by grind⟩
  · obtain ⟨fails, names, -⟩ := groups_exact _ named'
    obtain ⟨e, failed⟩ := fails.mpr ⟨"Q", inUse_update.mpr (by grind), 2, inUse_update.mpr (by grind)⟩
    obtain ⟨base, rfl, -, member, grouped⟩ := names e failed
    obtain ⟨rfl, -⟩ | ⟨-, ⟨⟩⟩ := inUse_update.mp grouped
    exact failed

end TensorKernel.Program
