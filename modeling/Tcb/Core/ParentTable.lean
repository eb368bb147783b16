import Mathlib.Data.List.Basic
import Mathlib.Data.Set.Card
import Mathlib.Tactic

/-!
# Named trees stored as parent indices

A table of entries in which every entry names its parent by index, with `-1`
for the root, stores a forest.  This file is about such tables in general: the
path of an entry is read along the parents, a path is resolved by one lookup
for each component, and on a table of the right shape the two are inverse.
-/

namespace Tcb.ParentTable

variable {α ν : Type} (parent : α → ℤ) (name : α → ν)

/-- The names from the root to an entry, read along the parents. -/
inductive PathTo (table : List α) : ℤ → List ν → Prop
  | root : PathTo table (-1) []
  | child {index : ℕ} {entry : α} {front : List ν}
      (hentry : table[index]? = some entry)
      (hfront : PathTo table (parent entry) front) :
      PathTo table index (front ++ [name entry])

/-- Parents come before their children, and siblings have different names. -/
structure Shape (table : List α) : Prop where
  parent_lt : ∀ (index : ℕ) entry, table[index]? = some entry →
    parent entry = -1 ∨ 0 ≤ parent entry ∧ parent entry < index
  siblings : ∀ (left right : ℕ) leftEntry rightEntry,
    table[left]? = some leftEntry → table[right]? = some rightEntry →
    parent leftEntry = parent rightEntry → name leftEntry = name rightEntry →
    left = right

variable {parent name}
variable {table : List α}

/-! ## Paths -/

theorem shape_nil : Shape parent name ([] : List α) :=
  ⟨by simp, by simp⟩

theorem Shape.pathTo_exists (hshape : Shape parent name table) {index : ℕ}
    (hindex : index < table.length) : ∃ names, PathTo parent name table index names := by
  induction index using Nat.strong_induction_on with
  | _ index ih =>
      have hentry : table[index]? = some table[index] := by simp [hindex]
      rcases hshape.parent_lt index _ hentry with hroot | ⟨hnonneg, hlt⟩
      · exact ⟨_, .child hentry (by rw [hroot]; exact .root)⟩
      · obtain ⟨up, hup⟩ := Int.eq_ofNat_of_zero_le hnonneg
        rw [hup] at hlt
        obtain ⟨front, hfront⟩ := ih up (by omega) (by omega)
        exact ⟨_, .child hentry (hup ▸ hfront)⟩

theorem PathTo.cases_nonneg {index : ℕ} {names : List ν}
    (hpath : PathTo parent name table index names) :
    ∃ entry front, table[index]? = some entry ∧ names = front ++ [name entry] ∧
      PathTo parent name table (parent entry) front := by
  generalize hid : (index : ℤ) = id at hpath
  cases hpath with
  | root => omega
  | @child other entry front hentry hfront =>
      obtain rfl : index = other := by omega
      exact ⟨entry, front, hentry, rfl, hfront⟩

theorem pathTo_neg_one_iff {names : List ν} :
    PathTo parent name table (-1) names ↔ names = [] := by
  constructor
  · intro hpath
    generalize hid : (-1 : ℤ) = id at hpath
    cases hpath with
    | root => rfl
    | child hentry hfront => omega
  · rintro rfl
    exact .root

theorem PathTo.index_cases {id : ℤ} {names : List ν}
    (hpath : PathTo parent name table id names) :
    id = -1 ∧ names = [] ∨ ∃ index : ℕ, id = index ∧ index < table.length := by
  cases hpath with
  | root => exact .inl ⟨rfl, rfl⟩
  | child hentry hfront =>
      exact .inr ⟨_, rfl, (List.getElem?_eq_some_iff.mp hentry).1⟩

/-- An entry has one path. -/
theorem PathTo.unique {id : ℤ} {left right : List ν}
    (hleft : PathTo parent name table id left)
    (hright : PathTo parent name table id right) : left = right := by
  induction hleft generalizing right with
  | root => exact (pathTo_neg_one_iff.mp hright).symm
  | child hentry hfront ih =>
      obtain ⟨entry, front, hentry', rfl, hfront'⟩ := hright.cases_nonneg
      rw [hentry, Option.some.injEq] at hentry'
      subst hentry'
      rw [ih hfront']

/-- A path leads to one entry. -/
theorem PathTo.injective (hshape : Shape parent name table) {left right : ℤ}
    {names : List ν} (hleft : PathTo parent name table left names)
    (hright : PathTo parent name table right names) : left = right := by
  induction hleft generalizing right with
  | root =>
      rcases hright.index_cases with ⟨rfl, -⟩ | ⟨index, rfl, -⟩
      · rfl
      · obtain ⟨entry, front, -, hnil, -⟩ := hright.cases_nonneg
        simp at hnil
  | @child index entry front hentry hfront ih =>
      rcases hright.index_cases with ⟨-, hnil⟩ | ⟨other, rfl, -⟩
      · simp at hnil
      · obtain ⟨entry', front', hentry', heq, hfront'⟩ := hright.cases_nonneg
        obtain ⟨rfl, hname⟩ := List.append_inj' heq rfl
        rw [hshape.siblings index other entry entry' hentry hentry' (ih hfront')
          (by simpa using hname)]

/-- The paths of the entries. -/
def paths (parent : α → ℤ) (name : α → ν) (table : List α) : Set (List ν) :=
  {names | ∃ index : ℕ, PathTo parent name table index names}

theorem paths_eq_range {path : Fin table.length → List ν}
    (hpath : ∀ index : Fin table.length, PathTo parent name table (index : ℕ) (path index)) :
    paths parent name table = Set.range path := by
  ext names
  constructor
  · rintro ⟨index, hnames⟩
    obtain ⟨entry, front, hentry, -⟩ := hnames.cases_nonneg
    have hlt : index < table.length := (List.getElem?_eq_some_iff.mp hentry).1
    exact ⟨⟨index, hlt⟩, (hpath ⟨index, hlt⟩).unique hnames⟩
  · rintro ⟨index, rfl⟩
    exact ⟨index, hpath index⟩

/-- A table has as many paths as entries. -/
theorem Shape.ncard_paths (hshape : Shape parent name table) :
    (paths parent name table).Finite ∧ (paths parent name table).ncard = table.length := by
  choose path hpath using fun index : Fin table.length => hshape.pathTo_exists index.isLt
  have hinjective : Function.Injective path := by
    intro left right hsame
    have hindex := PathTo.injective hshape (hpath left) (hsame ▸ hpath right)
    exact Fin.ext (by exact_mod_cast hindex)
  rw [paths_eq_range hpath]
  refine ⟨Set.finite_range path, ?_⟩
  calc (Set.range path).ncard
      = Nat.card (Fin table.length) := Set.ncard_range_of_injective hinjective
    _ = table.length := Nat.card_fin _

/-- An ancestor of an entry is reached by a shorter path. -/
theorem Shape.pathTo_length_le (hshape : Shape parent name table) {id : ℤ}
    {names : List ν} (hpath : PathTo parent name table id names) :
    (names.length : ℤ) ≤ id + 1 := by
  induction hpath with
  | root => simp
  | @child index entry front hentry hfront ih =>
      have hparent := hshape.parent_lt index entry hentry
      simp only [List.length_append, List.length_singleton]
      push_cast
      omega

/-! ## Lookup -/

section Lookup

variable [DecidableEq ν] (parent name)

/-- The first entry with the given name and parent, or `-1`. -/
def find (table : List α) (wanted : ν) (under : ℤ) : ℤ :=
  match table.findIdx? (fun entry => parent entry = under ∧ name entry = wanted) with
  | some index => index
  | none => -1

/-- Resolve a path from an entry on, one lookup for each component. -/
def resolve (table : List α) : ℤ → List ν → Option ℤ
  | under, [] => some under
  | under, wanted :: rest =>
      if find parent name table wanted under = -1 then none
      else resolve table (find parent name table wanted under) rest

variable {parent name}

theorem find_eq_neg_one_iff {wanted : ν} {under : ℤ} :
    find parent name table wanted under = -1 ↔
      ∀ entry ∈ table, parent entry = under → name entry ≠ wanted := by
  rw [find]
  split
  · rename_i index hindex
    rw [List.findIdx?_eq_some_iff_getElem] at hindex
    obtain ⟨hlt, hentry, -⟩ := hindex
    simp only [decide_eq_true_eq] at hentry
    constructor
    · intro hneg
      omega
    · intro hnone
      exact absurd hentry.2 (hnone _ (List.getElem_mem hlt) hentry.1)
  · rename_i hnone
    rw [List.findIdx?_eq_none_iff] at hnone
    simpa using hnone

/-- A lookup that succeeds returns an entry with that name and parent. -/
theorem find_spec {wanted : ν} {under : ℤ}
    (hfound : find parent name table wanted under ≠ -1) :
    ∃ (index : ℕ) (entry : α), find parent name table wanted under = index ∧
      table[index]? = some entry ∧ parent entry = under ∧ name entry = wanted := by
  unfold find at hfound ⊢
  split
  · rename_i index hindex
    rw [List.findIdx?_eq_some_iff_getElem] at hindex
    obtain ⟨hlt, hentry, -⟩ := hindex
    simp only [decide_eq_true_eq] at hentry
    exact ⟨index, table[index], rfl, by simp [hlt], hentry.1, hentry.2⟩
  · rename_i hnone
    rw [hnone] at hfound
    exact absurd rfl hfound

/-- On a table of the right shape the lookup returns the only match. -/
theorem Shape.find_eq (hshape : Shape parent name table) {index : ℕ} {entry : α}
    (hentry : table[index]? = some entry) :
    find parent name table (name entry) (parent entry) = index := by
  have hfound : find parent name table (name entry) (parent entry) ≠ -1 := by
    rw [ne_eq, find_eq_neg_one_iff]
    intro hnone
    exact hnone entry (List.mem_of_getElem? hentry) rfl rfl
  obtain ⟨found, other, heq, hother, hparent, hname⟩ := find_spec hfound
  rw [heq, hshape.siblings found index other entry hother hentry hparent hname]

/-! ## Resolving paths -/

theorem resolve_append {under : ℤ} {front back : List ν} :
    resolve parent name table under (front ++ back) =
      (resolve parent name table under front).bind
        (resolve parent name table · back) := by
  induction front generalizing under with
  | nil => rfl
  | cons wanted rest ih =>
      rw [List.cons_append, resolve, resolve]
      split
      · rfl
      · exact ih

theorem resolve_concat_eq_some {under id : ℤ} {front : List ν} {wanted : ν} :
    resolve parent name table under (front ++ [wanted]) = some id ↔
      ∃ middle, resolve parent name table under front = some middle ∧
        find parent name table wanted middle = id ∧ id ≠ -1 := by
  rw [resolve_append, Option.bind_eq_some_iff]
  refine exists_congr fun middle => and_congr_right fun _ => ?_
  rw [resolve]
  split
  · rename_i hnone
    simp only [reduceCtorEq, hnone, false_iff, not_and, not_not]
    exact fun h => h.symm
  · rename_i hsome
    simp only [resolve, Option.some.injEq]
    constructor
    · rintro rfl
      exact ⟨rfl, hsome⟩
    · exact fun h => h.1

/-- What lookup finds from the root is the entry the path leads to. -/
theorem Shape.resolve_eq_some_iff (hshape : Shape parent name table) {id : ℤ}
    {names : List ν} :
    resolve parent name table (-1) names = some id ↔
      PathTo parent name table id names := by
  induction names using List.reverseRecOn generalizing id with
  | nil =>
      rw [resolve, Option.some.injEq]
      constructor
      · rintro rfl
        exact .root
      · exact fun hpath => PathTo.injective hshape .root hpath
  | append_singleton front wanted ih =>
      rw [resolve_concat_eq_some]
      constructor
      · rintro ⟨middle, hmiddle, rfl, hfound⟩
        obtain ⟨index, entry, heq, hentry, rfl, rfl⟩ := find_spec hfound
        rw [heq]
        exact .child hentry (ih.mp hmiddle)
      · intro hpath
        rcases hpath.index_cases with ⟨-, hnil⟩ | ⟨index, rfl, -⟩
        · simp at hnil
        · obtain ⟨entry, front', hentry, heq, hfront⟩ := hpath.cases_nonneg
          obtain ⟨rfl, hname⟩ := List.append_inj' heq rfl
          obtain rfl : wanted = name entry := by simpa using hname
          exact ⟨parent entry, ih.mpr hfront, hshape.find_eq hentry, by omega⟩

/-! ## Growing a table -/

/-- A new entry under an existing parent, with a name that is new there. -/
theorem Shape.concat (hshape : Shape parent name table) {entry : α}
    (hparent : parent entry = -1 ∨ 0 ≤ parent entry ∧ parent entry < table.length)
    (hfresh : find parent name table (name entry) (parent entry) = -1) :
    Shape parent name (table ++ [entry]) := by
  rw [find_eq_neg_one_iff] at hfresh
  have hcases : ∀ (index : ℕ) found, (table ++ [entry])[index]? = some found →
      table[index]? = some found ∨ index = table.length ∧ found = entry := by
    intro index found hfound
    rw [List.getElem?_append] at hfound
    split at hfound
    · exact .inl hfound
    · obtain ⟨hindex, hget⟩ := List.getElem?_eq_some_iff.mp hfound
      simp only [List.length_singleton] at hindex
      refine .inr ⟨by omega, ?_⟩
      simpa [show index - table.length = 0 by omega] using hget.symm
  constructor
  · intro index found hfound
    rcases hcases index found hfound with hold | ⟨rfl, rfl⟩
    · exact hshape.parent_lt index found hold
    · exact hparent
  · intro left right leftEntry rightEntry hleft hright hparents hnames
    rcases hcases left leftEntry hleft with hold | ⟨rfl, rfl⟩ <;>
      rcases hcases right rightEntry hright with hold' | ⟨rfl, rfl⟩
    · exact hshape.siblings left right _ _ hold hold' hparents hnames
    · exact absurd hnames (hfresh _ (List.mem_of_getElem? hold) hparents)
    · exact absurd hnames.symm (hfresh _ (List.mem_of_getElem? hold') hparents.symm)
    · rfl

end Lookup

/-- Entries keep their paths when the table grows at its end. -/
theorem PathTo.append {id : ℤ} {names : List ν}
    (hpath : PathTo parent name table id names) (more : List α) :
    PathTo parent name (table ++ more) id names := by
  induction hpath with
  | root => exact .root
  | child hentry hfront ih =>
      exact .child (List.getElem?_append_left
        (List.getElem?_eq_some_iff.mp hentry).1 ▸ hentry) ih

/-- The paths of a grown table are the old ones and the one of the new entry. -/
theorem Shape.pathTo_concat_iff {entry : α}
    (hshape : Shape parent name (table ++ [entry])) {id : ℤ} {names : List ν} :
    PathTo parent name (table ++ [entry]) id names ↔
      PathTo parent name table id names ∨ id = table.length ∧
        ∃ front, names = front ++ [name entry] ∧
          PathTo parent name table (parent entry) front := by
  have hbelow : ∀ {id : ℤ} {names : List ν},
      PathTo parent name (table ++ [entry]) id names → id < table.length →
        PathTo parent name table id names := by
    intro id names hpath
    induction hpath with
    | root => exact fun _ => .root
    | @child index found front hfound hfront ih =>
        intro hlt
        have hparent := hshape.parent_lt index found hfound
        rw [List.getElem?_append_left (by omega)] at hfound
        exact .child hfound (ih (by omega))
  constructor
  · intro hpath
    rcases hpath.index_cases with ⟨rfl, rfl⟩ | ⟨index, rfl, hlt⟩
    · exact .inl .root
    · by_cases hold : index < table.length
      · exact .inl (hbelow hpath (by omega))
      · simp only [List.length_append, List.length_singleton] at hlt
        obtain rfl : index = table.length := by omega
        obtain ⟨found, front, hfound, rfl, hfront⟩ := hpath.cases_nonneg
        have hparent := hshape.parent_lt _ found hfound
        simp only [List.getElem?_concat_length, Option.some.injEq] at hfound
        subst hfound
        exact .inr ⟨rfl, front, rfl, hbelow hfront (by omega)⟩
  · rintro (hold | ⟨rfl, front, rfl, hfront⟩)
    · exact hold.append [entry]
    · exact .child (by simp) (hfront.append [entry])

/-! ## Tables that agree on parents and names -/

section Agreement

variable {left right : List α}

theorem getElem?_of_map_eq {β : Type} {f : α → β} (hsame : left.map f = right.map f)
    {index : ℕ} {entry : α} (hentry : left[index]? = some entry) :
    ∃ other, right[index]? = some other ∧ f other = f entry := by
  have hmap : (left.map f)[index]? = (right.map f)[index]? := by rw [hsame]
  rw [List.getElem?_map, List.getElem?_map, hentry, Option.map_some] at hmap
  exact Option.map_eq_some_iff.mp hmap.symm

theorem Shape.of_map_eq
    (hsame : left.map (fun entry => (parent entry, name entry)) =
      right.map fun entry => (parent entry, name entry))
    (hshape : Shape parent name left) : Shape parent name right := by
  constructor
  · intro index entry hentry
    obtain ⟨other, hother, hagree⟩ := getElem?_of_map_eq hsame.symm hentry
    rw [← (Prod.mk.inj hagree).1]
    exact hshape.parent_lt index other hother
  · intro one two oneEntry twoEntry hone htwo hparents hnames
    obtain ⟨one', hone', hagree⟩ := getElem?_of_map_eq hsame.symm hone
    obtain ⟨two', htwo', hagree'⟩ := getElem?_of_map_eq hsame.symm htwo
    rw [Prod.mk.injEq] at hagree hagree'
    refine hshape.siblings one two one' two' hone' htwo' ?_ ?_
    · rw [hagree.1, hagree'.1, hparents]
    · rw [hagree.2, hagree'.2, hnames]

theorem PathTo.of_map_eq
    (hsame : left.map (fun entry => (parent entry, name entry)) =
      right.map fun entry => (parent entry, name entry))
    {id : ℤ} {names : List ν} (hpath : PathTo parent name left id names) :
    PathTo parent name right id names := by
  induction hpath with
  | root => exact .root
  | child hentry hfront ih =>
      obtain ⟨other, hother, hagree⟩ := getElem?_of_map_eq hsame hentry
      rw [Prod.mk.injEq] at hagree
      rw [← hagree.2]
      exact .child hother (hagree.1 ▸ ih)

end Agreement

end Tcb.ParentTable
