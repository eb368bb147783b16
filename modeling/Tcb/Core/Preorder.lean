import Tcb.Core.ParentTable

/-!
# Walking a table of parent indices

A recursive walk from an index lists the entries whose parent it is, in
increasing order, and goes below those that open.  When parents come before
their children the walk needs no more calls in a row than there are entries,
visits no entry twice, and reaches exactly the entries all of whose ancestors
open.
-/

namespace Tcb.Preorder

variable {α : Type} (parent : α → ℤ) (opens : α → Bool)

/-- The entries with the given parent, in increasing order. -/
def children (table : List α) (under : ℤ) : List ℕ :=
  (List.range table.length).filter fun index =>
    (table[index]?).any fun entry => parent entry = under

/-- Whether a walk goes below an entry. -/
def opensAt (table : List α) (index : ℕ) : Bool :=
  (table[index]?).any opens

/-- The entries below an index in the order of a recursive walk, cut off when
the calls in a row use up the fuel. -/
def preorder (table : List α) : ℕ → ℤ → List ℕ
  | 0, _ => []
  | fuel + 1, under =>
      (children parent table under).flatMap fun index =>
        index :: if opensAt opens table index then preorder table fuel index else []

/-- The entries that a walk from the root reaches. -/
inductive Visited (table : List α) : ℕ → Prop
  | top {index : ℕ} {entry : α} (hentry : table[index]? = some entry)
      (hparent : parent entry = -1) : Visited table index
  | inside {index up : ℕ} {entry above : α} (hentry : table[index]? = some entry)
      (hparent : parent entry = up) (habove : table[up]? = some above)
      (hopens : opens above = true) (hup : Visited table up) : Visited table index

/-- Parents come before their children. -/
def ParentsFirst (table : List α) : Prop :=
  ∀ (index : ℕ) entry, table[index]? = some entry →
    parent entry = -1 ∨ 0 ≤ parent entry ∧ parent entry < index

variable {parent opens}
variable {table : List α}

/-- Tables that agree on parents and on what opens are walked alike. -/
theorem preorder_of_map_eq {left right : List α}
    (hsame : left.map (fun entry => (parent entry, opens entry)) =
      right.map fun entry => (parent entry, opens entry)) (fuel : ℕ) (under : ℤ) :
    preorder parent opens left fuel under = preorder parent opens right fuel under := by
  have hlength : left.length = right.length := by
    simpa using congrArg List.length hsame
  have hentry : ∀ (index : ℕ) {β : Type} (f : ℤ × Bool → β),
      (left[index]?).map (fun entry => f (parent entry, opens entry)) =
        (right[index]?).map fun entry => f (parent entry, opens entry) := by
    intro index β f
    have hmap := congrArg (fun entries => (entries[index]?).map f) hsame
    simpa [Function.comp_def] using hmap
  have hchildren : ∀ under, children parent left under = children parent right under := by
    intro under
    rw [children, children, hlength]
    apply List.filter_congr
    intro index _
    have hany := congrArg (·.any id) (hentry index fun pair => decide (pair.1 = under))
    simpa [Option.any_map] using hany
  have hopens : ∀ index, opensAt opens left index = opensAt opens right index := by
    intro index
    have hany := congrArg (·.any id) (hentry index Prod.snd)
    simpa [Option.any_map, opensAt] using hany
  induction fuel generalizing under with
  | zero => rfl
  | succ fuel ih =>
      rw [preorder, preorder, hchildren]
      apply List.flatMap_congr
      intro child _
      rw [hopens, ih]

theorem mem_children_iff {under : ℤ} {index : ℕ} :
    index ∈ children parent table under ↔
      ∃ entry, table[index]? = some entry ∧ parent entry = under := by
  simp only [children, List.mem_filter, List.mem_range, Option.any_eq_true,
    decide_eq_true_eq]
  constructor
  · exact fun h => h.2
  · rintro ⟨entry, hentry, hparent⟩
    exact ⟨(List.getElem?_eq_some_iff.mp hentry).1, entry, hentry, hparent⟩

theorem opensAt_iff {index : ℕ} :
    opensAt opens table index = true ↔
      ∃ entry, table[index]? = some entry ∧ opens entry = true := by
  simp [opensAt, Option.any_eq_true]

theorem mem_preorder_succ {fuel : ℕ} {under : ℤ} {index : ℕ} :
    index ∈ preorder parent opens table (fuel + 1) under ↔
      ∃ child ∈ children parent table under, index = child ∨
        opensAt opens table child = true ∧
          index ∈ preorder parent opens table fuel child := by
  rw [preorder, List.mem_flatMap]
  refine exists_congr fun child => and_congr_right fun _ => ?_
  by_cases hopens : opensAt opens table child = true <;> simp [hopens]

theorem ParentsFirst.under_lt (hfirst : ParentsFirst parent table) {under : ℤ}
    {index : ℕ} (hchild : index ∈ children parent table under) : under < index := by
  obtain ⟨entry, hentry, rfl⟩ := mem_children_iff.mp hchild
  rcases hfirst index entry hentry with h | h <;> omega

/-- Every entry of a walk lies behind the index it started from. -/
theorem ParentsFirst.lt_of_mem_preorder (hfirst : ParentsFirst parent table)
    {fuel : ℕ} {under : ℤ} {index : ℕ}
    (hmem : index ∈ preorder parent opens table fuel under) :
    under < index ∧ index < table.length := by
  induction fuel generalizing under with
  | zero => simp [preorder] at hmem
  | succ fuel ih =>
      obtain ⟨child, hchild, hcases⟩ := mem_preorder_succ.mp hmem
      have hunder := hfirst.under_lt hchild
      rcases hcases with rfl | ⟨-, hbelow⟩
      · obtain ⟨entry, hentry, -⟩ := mem_children_iff.mp hchild
        exact ⟨hunder, (List.getElem?_eq_some_iff.mp hentry).1⟩
      · exact ⟨hunder.trans (ih hbelow).1, (ih hbelow).2⟩

/-- More fuel than there are entries behind the start changes nothing. -/
theorem ParentsFirst.preorder_succ (hfirst : ParentsFirst parent table)
    {fuel : ℕ} {under : ℤ} (hfuel : (table.length : ℤ) ≤ fuel + under + 1) :
    preorder parent opens table (fuel + 1) under =
      preorder parent opens table fuel under := by
  induction fuel generalizing under with
  | zero =>
      have hnone : children parent table under = [] := by
        rw [List.eq_nil_iff_forall_not_mem]
        intro index hchild
        have hunder := hfirst.under_lt hchild
        obtain ⟨entry, hentry, -⟩ := mem_children_iff.mp hchild
        have hlt := (List.getElem?_eq_some_iff.mp hentry).1
        omega
      simp [preorder, hnone]
  | succ fuel ih =>
      rw [preorder, preorder]
      apply List.flatMap_congr
      intro child hchild
      have hunder := hfirst.under_lt hchild
      rw [ih (by omega)]

/-- The parent of an entry met below an index is the index or was met too. -/
theorem parent_of_mem_preorder {fuel : ℕ} {under : ℤ} {index : ℕ}
    (hmem : index ∈ preorder parent opens table fuel under) :
    ∃ entry, table[index]? = some entry ∧ (parent entry = under ∨
      ∃ up ∈ preorder parent opens table fuel under,
        parent entry = (up : ℕ) ∧ opensAt opens table up = true) := by
  induction fuel generalizing under with
  | zero => simp [preorder] at hmem
  | succ fuel ih =>
      obtain ⟨child, hchild, hcases⟩ := mem_preorder_succ.mp hmem
      rcases hcases with rfl | ⟨hopens, hbelow⟩
      · obtain ⟨entry, hentry, hparent⟩ := mem_children_iff.mp hchild
        exact ⟨entry, hentry, .inl hparent⟩
      · obtain ⟨entry, hentry, hparent | ⟨up, hup, hparent⟩⟩ := ih hbelow
        · exact ⟨entry, hentry, .inr ⟨child,
            mem_preorder_succ.mpr ⟨child, hchild, .inl rfl⟩, hparent, hopens⟩⟩
        · exact ⟨entry, hentry, .inr ⟨up,
            mem_preorder_succ.mpr ⟨child, hchild, .inr ⟨hopens, hup⟩⟩, hparent⟩⟩

/-- The walks below two different siblings have nothing in common. -/
theorem ParentsFirst.disjoint_siblings (hfirst : ParentsFirst parent table)
    {fuel : ℕ} {under : ℤ} {left right : ℕ}
    (hleft : left ∈ children parent table under)
    (hright : right ∈ children parent table under) (hne : left ≠ right)
    {index : ℕ}
    (hinLeft : index = left ∨ index ∈ preorder parent opens table fuel left)
    (hinRight : index = right ∨ index ∈ preorder parent opens table fuel right) :
    False := by
  -- an entry below one sibling cannot be the other: its parent lies too far behind
  have hsibling : ∀ {one other : ℕ}, one ∈ children parent table under →
      other ∈ children parent table under →
      one ∉ preorder parent opens table fuel (other : ℤ) := by
    intro one other hone hother hmem
    obtain ⟨entry, hentry, hup⟩ := parent_of_mem_preorder hmem
    obtain ⟨entry', hentry', hparent⟩ := mem_children_iff.mp hone
    rw [hentry, Option.some.injEq] at hentry'
    subst hentry'
    have hunder := hfirst.under_lt hother
    rcases hup with hup | ⟨up, hmem', hup, -⟩
    · omega
    · have := (hfirst.lt_of_mem_preorder hmem').1
      omega
  induction index using Nat.strong_induction_on with
  | _ index ih =>
      rcases hinLeft with rfl | hinLeft
      · rcases hinRight with rfl | hinRight
        · exact hne rfl
        · exact hsibling hleft hright hinRight
      · rcases hinRight with rfl | hinRight
        · exact hsibling hright hleft hinLeft
        · obtain ⟨entry, hentry, hup⟩ := parent_of_mem_preorder hinLeft
          obtain ⟨entry', hentry', hup'⟩ := parent_of_mem_preorder hinRight
          rw [hentry, Option.some.injEq] at hentry'
          subst hentry'
          have hlt := hfirst index entry hentry
          rcases hup with hup | ⟨up, hmem, hup, -⟩ <;>
            rcases hup' with hup' | ⟨up', hmem', hup', -⟩
          · omega
          · exact ih up' (by omega) (.inl (by omega)) (.inr hmem')
          · exact ih up (by omega) (.inr hmem) (.inl (by omega))
          · obtain rfl : up = up' := by omega
            exact ih up (by omega) (.inr hmem) (.inr hmem')

theorem mem_cons_ite {index child : ℕ} {opened : Bool} {below : List ℕ}
    (hmem : index ∈ child :: if opened then below else []) :
    index = child ∨ index ∈ below := by
  cases opened with
  | false => exact .inl (by simpa using hmem)
  | true => simpa using hmem

/-- A walk visits no entry twice. -/
theorem ParentsFirst.nodup_preorder (hfirst : ParentsFirst parent table)
    (fuel : ℕ) (under : ℤ) : (preorder parent opens table fuel under).Nodup := by
  induction fuel generalizing under with
  | zero => simp [preorder]
  | succ fuel ih =>
      rw [preorder, List.nodup_flatMap]
      constructor
      · intro child hchild
        by_cases hopens : opensAt opens table child = true
        · rw [if_pos hopens, List.nodup_cons]
          refine ⟨fun hmem => ?_, ih child⟩
          exact absurd (hfirst.lt_of_mem_preorder hmem).1 (by omega)
        · simp [hopens]
      · have hnodup : (children parent table under).Nodup :=
          List.nodup_range.filter _
        apply hnodup.pairwise_of_forall_ne
        intro left hleft right hright hne index hinLeft hinRight
        refine @ParentsFirst.disjoint_siblings _ _ opens _ hfirst fuel _ _ _ hleft hright hne
          index ?_ ?_
        · exact mem_cons_ite hinLeft
        · exact mem_cons_ite hinRight

/-- Every entry of a walk other than the children of the index has a parent
that lies behind it. -/
theorem ParentsFirst.under_le_parent (hfirst : ParentsFirst parent table) {fuel : ℕ}
    {under : ℤ} {index : ℕ} (hmem : index ∈ preorder parent opens table fuel under)
    {entry : α} (hentry : table[index]? = some entry) : under ≤ parent entry := by
  obtain ⟨entry', hentry', hparent⟩ := parent_of_mem_preorder hmem
  obtain rfl : entry = entry' := Option.some.inj (hentry.symm.trans hentry')
  rcases hparent with hparent | ⟨up, hup, hparent, -⟩
  · exact hparent.ge
  · rw [hparent]
    exact (hfirst.lt_of_mem_preorder hup).1.le

/-- A walk visits siblings in increasing order. -/
theorem ParentsFirst.pairwise_siblings (hfirst : ParentsFirst parent table) (fuel : ℕ)
    (under : ℤ) : (preorder parent opens table fuel under).Pairwise fun left right =>
      ∀ one other, table[left]? = some one → table[right]? = some other →
        parent one = parent other → left < right := by
  induction fuel generalizing under with
  | zero => simp [preorder]
  | succ fuel ih =>
      -- an entry below a child is not a sibling of any child
      have hbelow : ∀ {child sibling index : ℕ}, child ∈ children parent table under →
          sibling ∈ children parent table under →
          index ∈ preorder parent opens table fuel (sibling : ℤ) → ∀ one other,
          table[child]? = some one → table[index]? = some other →
          parent one ≠ parent other := by
        intro child sibling index hchild hsibling hmem one other hone hother hsame
        obtain ⟨one', hone', hunder⟩ := mem_children_iff.mp hchild
        obtain rfl : one = one' := Option.some.inj (hone.symm.trans hone')
        have hbehind := hfirst.under_le_parent hmem hother
        have hlt := hfirst.under_lt hsibling
        omega
      rw [preorder, List.pairwise_flatMap]
      constructor
      · intro child hchild
        by_cases hopens : opensAt opens table child = true
        · rw [if_pos hopens, List.pairwise_cons]
          refine ⟨fun index hmem one other hone hother hsame => ?_, ih child⟩
          exact absurd hsame (hbelow hchild hchild hmem one other hone hother)
        · simp [hopens]
      · have hsorted : (children parent table under).Pairwise (· < ·) :=
          List.pairwise_lt_range.filter _
        refine hsorted.imp_of_mem fun hleft hright hlt index hinLeft right hinRight => ?_
        intro one other hone hother hsame
        rcases mem_cons_ite hinLeft with rfl | hinLeft <;>
          rcases mem_cons_ite hinRight with rfl | hinRight
        · exact hlt
        · exact absurd hsame (hbelow hleft hright hinRight one other hone hother)
        · exact absurd hsame.symm (hbelow hright hleft hinLeft other one hother hone)
        · -- their common parent would be below both
          obtain ⟨one', hone', hup⟩ := parent_of_mem_preorder hinLeft
          obtain ⟨other', hother', hup'⟩ := parent_of_mem_preorder hinRight
          obtain rfl : one = one' := Option.some.inj (hone.symm.trans hone')
          obtain rfl : other = other' := Option.some.inj (hother.symm.trans hother')
          have hcommon : ∀ {start : ℕ} {up : ℤ}, (up = start ∨
              ∃ above ∈ preorder parent opens table fuel (start : ℤ), up = (above : ℕ) ∧
                opensAt opens table above = true) →
              ∃ above : ℕ, up = above ∧
                (above = start ∨ above ∈ preorder parent opens table fuel (start : ℤ)) := by
            rintro start up (rfl | ⟨above, habove, rfl, -⟩)
            · exact ⟨start, rfl, .inl rfl⟩
            · exact ⟨above, rfl, .inr habove⟩
          obtain ⟨above, habove, hunderLeft⟩ := hcommon hup
          obtain ⟨above', habove', hunderRight⟩ := hcommon hup'
          obtain rfl : above = above' := by omega
          exact (hfirst.disjoint_siblings hleft hright hlt.ne hunderLeft hunderRight).elim

theorem visited_of_mem_preorder {fuel : ℕ} {index : ℕ} {under : ℤ}
    (hunder : under = -1 ∨ ∃ up : ℕ, under = up ∧ opensAt opens table up = true ∧
      Visited parent opens table up)
    (hmem : index ∈ preorder parent opens table fuel under) :
    Visited parent opens table index := by
  induction fuel generalizing under with
  | zero => simp [preorder] at hmem
  | succ fuel ih =>
      obtain ⟨child, hchild, hcases⟩ := mem_preorder_succ.mp hmem
      have hvisited : Visited parent opens table child := by
        obtain ⟨entry, hentry, hparent⟩ := mem_children_iff.mp hchild
        rcases hunder with rfl | ⟨up, rfl, hopens, hup⟩
        · exact .top hentry hparent
        · obtain ⟨above, habove, hopens⟩ := opensAt_iff.mp hopens
          exact .inside hentry hparent habove hopens hup
      rcases hcases with rfl | ⟨hopens, hbelow⟩
      · exact hvisited
      · exact ih (.inr ⟨child, rfl, hopens, hvisited⟩) hbelow

/-- A child of an open entry of a walk belongs to the walk with one more call. -/
theorem mem_preorder_of_parent {fuel : ℕ} {under : ℤ} {up index : ℕ}
    (hup : up ∈ preorder parent opens table fuel under)
    (hopens : opensAt opens table up = true)
    (hchild : index ∈ children parent table up) :
    index ∈ preorder parent opens table (fuel + 1) under := by
  induction fuel generalizing under with
  | zero => simp [preorder] at hup
  | succ fuel ih =>
      obtain ⟨child, hmem, hcases⟩ := mem_preorder_succ.mp hup
      refine mem_preorder_succ.mpr ⟨child, hmem, .inr ?_⟩
      rcases hcases with rfl | ⟨hopens', hbelow⟩
      · exact ⟨hopens, mem_preorder_succ.mpr ⟨index, hchild, .inl rfl⟩⟩
      · exact ⟨hopens', ih hbelow⟩

/-- With fuel for every entry, the walk from the root visits exactly the
entries all of whose ancestors open. -/
theorem ParentsFirst.mem_preorder_root_iff (hfirst : ParentsFirst parent table)
    {fuel : ℕ} (hfuel : table.length ≤ fuel) {index : ℕ} :
    index ∈ preorder parent opens table fuel (-1) ↔
      Visited parent opens table index := by
  constructor
  · exact visited_of_mem_preorder (.inl rfl)
  · intro hvisited
    induction hvisited with
    | @top index entry hentry hparent =>
        obtain ⟨rest, rfl⟩ : ∃ rest, fuel = rest + 1 := by
          have := (List.getElem?_eq_some_iff.mp hentry).1
          exact ⟨fuel - 1, by omega⟩
        exact mem_preorder_succ.mpr
          ⟨index, mem_children_iff.mpr ⟨entry, hentry, hparent⟩, .inl rfl⟩
    | @inside index up entry above hentry hparent habove hopens hup ih =>
        rw [← @ParentsFirst.preorder_succ _ _ opens _ hfirst fuel _ (by omega)]
        exact mem_preorder_of_parent ih (opensAt_iff.mpr ⟨above, habove, hopens⟩)
          (mem_children_iff.mpr ⟨entry, hentry, hparent⟩)

/-- When every parent opens, the walk from the root visits every entry exactly
once. -/
theorem ParentsFirst.preorder_perm_range (hfirst : ParentsFirst parent table)
    {fuel : ℕ} (hfuel : table.length ≤ fuel)
    (hopen : ∀ (index : ℕ) entry, table[index]? = some entry → parent entry ≠ -1 →
      ∃ (up : ℕ) (above : α), parent entry = up ∧ table[up]? = some above ∧
        opens above = true) :
    (preorder parent opens table fuel (-1)).Perm (List.range table.length) := by
  rw [List.perm_ext_iff_of_nodup (hfirst.nodup_preorder fuel (-1)) List.nodup_range]
  intro index
  rw [hfirst.mem_preorder_root_iff hfuel, List.mem_range]
  constructor
  · intro hvisited
    cases hvisited with
    | top hentry => exact (List.getElem?_eq_some_iff.mp hentry).1
    | inside hentry => exact (List.getElem?_eq_some_iff.mp hentry).1
  · intro hindex
    induction index using Nat.strong_induction_on with
    | _ index ih =>
        have hentry : table[index]? = some table[index] := by simp [hindex]
        by_cases hparent : parent table[index] = -1
        · exact .top hentry hparent
        · obtain ⟨up, above, hup, habove, hopens⟩ := hopen index _ hentry hparent
          have hlt := hfirst index _ hentry
          exact .inside hentry hup habove hopens (ih up (by omega) (by omega))

end Tcb.Preorder
