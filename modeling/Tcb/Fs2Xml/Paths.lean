import Tcb.Fs2Xml.MergeFile

/-!
# Paths on disk

`GetFullPathNotHidden` chases the parents of an inode and writes its path from
the back, without the dot or the underscores that a component starts with.
The result is given in closed form for every inode that has a path.
-/

namespace Tcb.Paths

open Tcb.CString
open Tcb.Inodes
open Tcb.Split
open Tcb.MergeFile

/-- `inodes[id]`.  Only the entries in use are modelled. -/
def entry (inodes : Table) (id : ℤ) : Run ExitReason Inode :=
  if 0 ≤ id then
    match inodes[id.toNat]? with
    | some node => .ok node
    | none => Run.fault .outOfBounds
  else Run.fault .outOfBounds

theorem entry_eq_ok {inodes : Table} {index : ℕ} {node : Inode} :
    entry inodes (index : ℤ) = .ok node ↔ inodes[index]? = some node := by
  rw [entry, if_pos (Int.natCast_nonneg index), Int.toNat_natCast]
  cases inodes[index]? <;> simp

theorem ends_entry (inodes : Table) (id : ℤ) : Run.Ends (entry inodes id) := by
  rw [entry]
  split
  · split <;> simp
  · simp

/-- A component as it appears on disk, and whether something was cut off:
a leading `'.'`, `'_'` or `"__"`. -/
def notHidden (name : List Byte) : List Byte × Bool :=
  if name.head? = some 46 then (name.drop 1, true)
  else if name.head? = some 95 ∧ name[1]? = some 95 then (name.drop 2, true)
  else if name.head? = some 95 then (name.drop 1, true)
  else (name, false)

/-- `sizeof(path)`. -/
def maxPath : ℕ := 1024

/-- The `while` loop, with the path written so far and the hidden flag. -/
def pathLoop (inodes : Table) : ℕ → ℤ → List Byte → Bool →
    Run ExitReason (List Byte × Bool)
  | fuel, id, path, hidden =>
      if id = -1 then .ok (path, hidden)
      else
        match fuel with
        | 0 => Run.outOfFuel
        | fuel + 1 => do
            let node ← entry inodes id
            let component := notHidden (nameOf node)
            Run.require ((47 :: component.1 ++ path).length < maxPath)
            pathLoop inodes fuel node.parentid (47 :: component.1 ++ path)
              (hidden || component.2)

/-- `GetFullPathNotHidden(root, id, &hidden)` with `hidden` cleared before.
The bound on the loop is never met on a table that `MergeFile` has built. -/
def getFullPathNotHidden (inodes : Table) (root : List Byte) (id : ℤ) :
    Run ExitReason (List Byte × Bool) := do
  let (path, hidden) ← pathLoop inodes (inodes.length + 1) id [] false
  Run.require ((root ++ path).length < maxPath)
  return (root ++ path, hidden)

/-! ## The path in closed form -/

/-- The components as they appear on disk, each behind a slash. -/
def shownPath (names : List (List Byte)) : List Byte :=
  names.flatMap fun name => 47 :: (notHidden name).1

/-- Whether a component of the path starts with a dot or an underscore. -/
def isHidden (names : List (List Byte)) : Bool :=
  names.any fun name => (notHidden name).2

@[simp]
theorem shownPath_append (left right : List (List Byte)) :
    shownPath (left ++ right) = shownPath left ++ shownPath right := by
  simp [shownPath]

@[simp]
theorem shownPath_singleton (name : List Byte) :
    shownPath [name] = 47 :: (notHidden name).1 := by
  simp [shownPath]

theorem notHidden_snd_iff {name : List Byte} :
    (notHidden name).2 = true ↔ name.head? = some 46 ∨ name.head? = some 95 := by
  rw [notHidden]
  split
  · simp_all
  · split
    · simp_all
    · split <;> simp_all

theorem isHidden_iff {names : List (List Byte)} :
    isHidden names = true ↔
      ∃ name ∈ names, name.head? = some 46 ∨ name.head? = some 95 := by
  simp [isHidden, notHidden_snd_iff]

theorem notHidden_of_not_hidden {name : List Byte}
    (hhidden : (notHidden name).2 = false) : (notHidden name).1 = name := by
  unfold notHidden at hhidden ⊢
  split_ifs at hhidden ⊢
  rfl

theorem notHidden_suffix (name : List Byte) : (notHidden name).1 <:+ name := by
  rw [notHidden]
  split
  · exact List.drop_suffix _ _
  · split
    · exact List.drop_suffix _ _
    · split
      · exact List.drop_suffix _ _
      · exact List.suffix_rfl

theorem shownPath_of_not_hidden {names : List (List Byte)}
    (hhidden : isHidden names = false) : shownPath names = joinedPath names := by
  apply List.flatMap_congr
  intro name hname
  have hname' : (notHidden name).2 = false := by
    have := List.any_eq_false.mp hhidden name hname
    simpa using this
  rw [notHidden_of_not_hidden hname']

theorem shownPath_length_le (names : List (List Byte)) :
    (shownPath names).length ≤ (joinedPath names).length := by
  induction names with
  | nil => simp [shownPath]
  | cons name names ih =>
      have hname := (notHidden_suffix name).length_le
      simp only [shownPath, joinedPath, List.flatMap_cons, List.length_append,
        List.length_cons] at ih ⊢
      omega

/-- The loop writes the components of an inode's path, or overruns the buffer
with them. -/
theorem pathLoop_eq {inodes : Table} {id : ℤ} {names : List (List Byte)}
    (hpath : PathTo inodes id names) {fuel : ℕ} (hfuel : names.length ≤ fuel)
    {path : List Byte} (hroom : path.length < maxPath) (hidden : Bool) :
    pathLoop inodes fuel id path hidden =
      if (shownPath names ++ path).length < maxPath then
        .ok (shownPath names ++ path, hidden || isHidden names)
      else Run.fault .outOfBounds := by
  induction hpath generalizing fuel path hidden with
  | root => cases fuel <;> simp [pathLoop, shownPath, isHidden, hroom]
  | @child index node front hnode hfront ih =>
      cases fuel with
      | zero => simp at hfuel
      | succ fuel =>
          have hid : ((index : ℕ) : ℤ) ≠ -1 := by omega
          have hfuel' : front.length ≤ fuel := by simpa using hfuel
          rw [pathLoop, if_neg hid]
          simp only [entry_eq_ok.mpr hnode, Run.ok_bind]
          by_cases hstep :
              (47 :: (notHidden (nameOf node)).1 ++ path).length < maxPath
          · rw [Run.require, if_pos hstep, Run.ok_bind, ih hfuel' hstep]
            simp [isHidden, Bool.or_assoc, Bool.or_comm]
          · have hfinal : ¬ (shownPath (front ++ [nameOf node]) ++ path).length <
                maxPath := by
              simp only [List.cons_append, List.length_cons, List.length_append,
                shownPath_append, shownPath_singleton] at hstep ⊢
              omega
            rw [Run.require, if_neg hstep, if_neg hfinal, Run.fault_bind]

/-- The chain of parents is left after at most as many steps as there are
inodes up to it. -/
theorem ends_pathLoop {inodes : Table} (hshape : Shape inodes) {fuel : ℕ} {id : ℤ}
    (hid : -1 ≤ id) (hfuel : id + 1 ≤ fuel) (path : List Byte) (hidden : Bool) :
    Run.Ends (pathLoop inodes fuel id path hidden) := by
  induction fuel generalizing id path hidden with
  | zero =>
      obtain rfl : id = -1 := by omega
      simp [pathLoop]
  | succ fuel ih =>
      rcases hid.eq_or_lt with rfl | hlt
      · simp [pathLoop]
      · obtain ⟨index, rfl⟩ := Int.eq_ofNat_of_zero_le (by omega : 0 ≤ id)
        rw [pathLoop, if_neg (by omega)]
        apply Run.ends_bind (ends_entry _ _)
        intro node hnode
        · have hparent := hshape.parent_lt index node (entry_eq_ok.mp hnode)
          refine Run.ends_bind (by simp) fun _ _ => ih ?_ ?_ _ _ <;> omega

/-- The path of an inode that has one, when it fits into the buffer. -/
theorem getFullPathNotHidden_eq {inodes : Table} (hshape : Shape inodes)
    {id : ℤ} {names : List (List Byte)} (hpath : PathTo inodes id names)
    (root : List Byte) :
    getFullPathNotHidden inodes root id =
      if (root ++ shownPath names).length < maxPath then
        .ok (root ++ shownPath names, isHidden names)
      else Run.fault .outOfBounds := by
  have hfuel : names.length ≤ inodes.length + 1 := by
    have hlength := ParentTable.Shape.pathTo_length_le hshape hpath
    rcases hpath.index_cases with ⟨rfl, rfl⟩ | ⟨index, rfl, hlt⟩
    · simp
    · omega
  rw [getFullPathNotHidden, pathLoop_eq hpath hfuel (by simp [maxPath]),
    List.append_nil, Bool.false_or]
  by_cases hfits : (root ++ shownPath names).length < maxPath
  · have hloop : (shownPath names).length < maxPath := by
      rw [List.length_append] at hfits
      omega
    simp only [if_pos hloop, if_pos hfits, Run.ok_bind, Run.require_pos hfits,
      Run.pure_eq_ok]
  · rw [if_neg hfits]
    by_cases hloop : (shownPath names).length < maxPath
    · simp only [if_pos hloop, Run.ok_bind, Run.require_neg hfits, Run.fault_bind]
    · simp only [if_neg hloop, Run.fault_bind]

theorem ends_getFullPathNotHidden {inodes : Table} (hshape : Shape inodes)
    (root : List Byte) {id : ℤ} (hid : -1 ≤ id) (hlt : id < inodes.length) :
    Run.Ends (getFullPathNotHidden inodes root id) := by
  refine Run.ends_bind (ends_pathLoop hshape hid (by push_cast; omega) _ _) ?_
  rintro ⟨path, hidden⟩ -
  exact Run.ends_bind (by simp) (by simp)

end Tcb.Paths
