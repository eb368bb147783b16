import Tcb.Fs2Xml.Split
import Tcb.Core.ParentTable

/-!
# Adding a member to the inode table

`MergeFile` looks up every component of the member's name but the last, gives
up when one is missing, leaves the table alone when the last one exists, and
otherwise appends one inode.  What a call can do is said once, in
`mergeFile_eq_ok`; every invariant of the table is derived from that.
-/

namespace Tcb.MergeFile

open Tcb.CString
open Tcb.Strtol
open Tcb.Inodes
open Tcb.Split

/-- The string in `inodes[id].name`. -/
def nameOf (node : Inode) : List Byte := node.name.bytes

/-- `SearchInode`: the first inode with that parent and name, or `-1`. -/
def searchInode (inodes : Table) (name : List Byte) (parentid : ℤ) : ℤ :=
  match inodes.findIdx? (fun node => node.parentid = parentid ∧ nameOf node = name) with
  | some index => index
  | none => -1

/-- One iteration of the walk over the components. -/
def walkStep (inodes : Table) (walk : Walk) (parentid : ℤ) (i : ℕ) :
    Run ExitReason ℤ := do
  let component ← walk.row i
  if searchInode inodes component parentid = -1 then Run.exit (.noInode i)
  else return searchInode inodes component parentid

/-- The walk over the components: the inode of the directory part, and the
last component. -/
def locate (ph : HeaderPtr) (inodes : Table) : Run ExitReason (ℤ × List Byte) := do
  let (n, walk) ← split ph Walk.declared
  let parentid ← (List.range (n - 1).toNat).foldlM (walkStep inodes walk) (-1)
  let component ← walk.row (n - 1)
  return (parentid, component)

/-- `malloc` and `memcpy` of the file content behind the header.  A negative
size makes `malloc` return a null pointer. -/
def copyData (ph : HeaderPtr) (size : ℤ) : Run ExitReason (Option (List Byte)) :=
  if size = 0 then .ok none
  else if size < 0 then Run.fault .nullPointer
  else do
    Run.require (512 + size.toNat ≤ ph.bytes.length)
    return some ((ph.bytes.drop 512).take size.toNat)

/-- The link of a hard link: the target behind a `'/'`, which is 47. -/
def hardLink (ph : HeaderPtr) : Run ExitReason (CArray 128) := do
  let target : CArray 127 ← CArray.strncpy 100 (by decide) (ph.from' .linkname)
  return {
    bytes := 47 :: target.bytes
    noNul := by simpa using target.noNul
    fits := by simpa using Nat.succ_lt_succ target.fits }

/-- The `switch` over the type flag, on the inode filled so far; `'5'`, `'0'`,
`'1'` and `'2'` are 53, 48, 49 and 50. -/
def applyTypeflag (ph : HeaderPtr) (node : Inode) : Run ExitReason Inode := do
  let typeflag ← ph.typeflag
  if typeflag = 53 then
    return { node with mode := node.mode ||| S_IFDIR }
  else if typeflag = 48 then do
    let data ← copyData ph node.size
    return { node with mode := node.mode ||| S_IFREG, data := data }
  else if typeflag = 49 ∨ typeflag = 50 then
    if (ph.from' .linkname).head? = some 0 then Run.exit .noLink
    else if typeflag = 49 then do
      let link ← hardLink ph
      return { node with mode := node.mode ||| S_IFLNK, link := link }
    else
      return { node with mode := node.mode ||| S_IFLNK }
  else Run.exit (.unknownTypeflag typeflag)

/-- The inode written for a member that is not in the table yet. -/
def newInode (ph : HeaderPtr) (component : List Byte) (parentid : ℤ) :
    Run ExitReason Inode := do
  let name ← CArray.strncpy 127 (by decide) (component ++ [0])
  let link ← CArray.strncpy 100 (by decide) (ph.from' .linkname)
  let size ← strtol 8 (ph.from' .size)
  let uid ← strtol 8 (ph.from' .uid)
  let gid ← strtol 8 (ph.from' .gid)
  let mtime ← strtol 8 (ph.from' .mtime)
  let mode ← strtol 8 (ph.from' .mode)
  let foreign : Bool := toInt uid ≠ 0 ∧ toInt uid ≠ 1000
  applyTypeflag ph {
    name := name
    src := { bytes := [], noNul := CArray.nil_noNul, fits := CArray.nil_fits }
    link := link
    mode := BitVec.ofInt 32 mode
    size := toInt size
    uid := if foreign then 0 else toInt uid
    gid := if foreign then 0 else toInt gid
    parentid := parentid
    data := none
    compressed := false
    load := false
    mtime := toUnsigned mtime }

/-- `MergeFile`.  An existing path is left alone, whatever the type flag. -/
def mergeFile (ph : HeaderPtr) (inodes : Table) : Run ExitReason Table := do
  let (parentid, component) ← locate ph inodes
  let ret := searchInode inodes component parentid
  let typeflag ← ph.typeflag
  if ret ≠ -1 ∧ typeflag ≠ 53 then return inodes
  else if ret ≠ -1 ∧ typeflag = 53 then return inodes
  else do
    Run.require (inodes.length < maxInodes)
    let node ← newInode ph component parentid
    return inodes ++ [node]

/-- `MergeFile` on a sequence of headers. -/
def mergeAll (headers : List HeaderPtr) (inodes : Table) : Run ExitReason Table :=
  headers.foldlM (fun inodes ph => mergeFile ph inodes) inodes

/-- The table after a sequence of `MergeFile` calls that all return, from the
empty table. -/
def Reachable (inodes : Table) : Prop :=
  ∃ headers, mergeAll headers [] = .ok inodes

/-! ## Paths of the table -/

abbrev PathTo (inodes : Table) : ℤ → List (List Byte) → Prop :=
  ParentTable.PathTo Inode.parentid nameOf inodes

abbrev Shape (inodes : Table) : Prop :=
  ParentTable.Shape Inode.parentid nameOf inodes

abbrev resolve (inodes : Table) : ℤ → List (List Byte) → Option ℤ :=
  ParentTable.resolve Inode.parentid nameOf inodes

theorem searchInode_eq_find (inodes : Table) (name : List Byte) (parentid : ℤ) :
    searchInode inodes name parentid =
      ParentTable.find Inode.parentid nameOf inodes name parentid := rfl

/-- The components that `Split` counts in a header's name, when they fit into
`walk`. -/
def HeaderPath (ph : HeaderPtr) (path : List (List Byte)) : Prop :=
  ∃ text last, (cString (ph.from' .name) : Run ExitReason _) = .ok text ∧
    lastByte ph text = .ok last ∧ (nameParts text).length ≤ walkRows ∧
    (∀ part ∈ nameParts text, part.length < walkColumns) ∧
    path = if last = 47 then (nameParts text).dropLast else nameParts text

theorem HeaderPath.mem {ph : HeaderPtr} {path : List (List Byte)}
    (hpath : HeaderPath ph path) {part : List Byte} (hpart : part ∈ path) :
    0 ∉ part ∧ 47 ∉ part ∧ part.length < walkColumns := by
  obtain ⟨text, last, htext, -, -, hcolumns, rfl⟩ := hpath
  have hmem : part ∈ nameParts text := by
    split at hpart
    · exact List.mem_of_mem_dropLast hpart
    · exact hpart
  exact ⟨not_mem_of_mem_nameParts (cString_eq_ok.mp htext).1 hmem,
    slash_not_mem_nameParts hmem, hcolumns part hmem⟩

theorem HeaderPath.unique {ph : HeaderPtr} {left right : List (List Byte)}
    (hleft : HeaderPath ph left) (hright : HeaderPath ph right) : left = right := by
  obtain ⟨text, last, htext, hlast, -, -, rfl⟩ := hleft
  obtain ⟨text', last', htext', hlast', -, -, rfl⟩ := hright
  rw [htext, Except.ok.injEq] at htext'
  subst htext'
  rw [hlast, Except.ok.injEq] at hlast'
  rw [hlast']

/-- The loop over the rows of `walk` resolves the components they hold. -/
theorem foldlM_walkStep_eq_ok {inodes : Table} {walk : Walk}
    {parts : List (List Byte)} {first : ℕ}
    (hrow : ∀ (index : ℕ) part, parts[index]? = some part →
      walk.row ((first + index : ℕ) : ℤ) = .ok part) {under parentid : ℤ} :
    (List.range' first parts.length).foldlM (walkStep inodes walk) under =
        .ok parentid ↔
      resolve inodes under parts = some parentid := by
  induction parts generalizing first under with
  | nil => simp [ParentTable.resolve]
  | cons part parts ih =>
      have hhead : walk.row (first : ℤ) = .ok part := by
        simpa using hrow 0 part (by simp)
      rw [List.length_cons, List.range'_succ, List.foldlM_cons, walkStep, hhead,
        Run.ok_bind, resolve, ParentTable.resolve, searchInode_eq_find]
      split
      · simp
      · rw [Run.pure_eq_ok, Run.ok_bind]
        apply ih
        intro index other hother
        have hother' := hrow (index + 1) other (by simpa using hother)
        rwa [show first + (index + 1) = first + 1 + index by omega] at hother'

/-- The components that `Split` counts, and the rows that hold them. -/
theorem split_path {ph : HeaderPtr} {text : List Byte} {n : ℤ} {walk : Walk}
    (hsplit : SplitResult ph text n walk) :
    ∃ (path : List (List Byte)), n = path.length ∧ HeaderPath ph path ∧
      ∀ (index : ℕ) part, path[index]? = some part →
        walk.row (index : ℤ) = .ok part := by
  obtain ⟨last, hlast, rfl⟩ := hsplit.count
  have hpos := List.length_pos_iff.mpr (nameParts_ne_nil text)
  refine ⟨if last = 47 then (nameParts text).dropLast else nameParts text, ?_, ?_, ?_⟩
  · split
    · rw [List.length_dropLast]
      omega
    · rfl
  · exact ⟨text, last, hsplit.string, hlast, hsplit.rows, hsplit.columns, rfl⟩
  · intro index part hpart
    apply hsplit.row
    split at hpart
    · rw [List.getElem?_dropLast] at hpart
      split at hpart
      · exact hpart
      · simp at hpart
    · exact hpart

/-- `MergeFile` finds the directory part exactly where the path resolves. -/
theorem locate_eq_ok {ph : HeaderPtr} {inodes : Table} {parentid : ℤ}
    {component : List Byte} :
    locate ph inodes = .ok (parentid, component) ↔
      ∃ front, HeaderPath ph (front ++ [component]) ∧
        resolve inodes (-1) front = some parentid := by
  -- what the rows say once `Split` has returned
  have hrows : ∀ {walk : Walk} {front : List (List Byte)} {last : List Byte},
      (∀ (index : ℕ) part, (front ++ [last])[index]? = some part →
        walk.row (index : ℤ) = .ok part) →
      walk.row (front.length : ℤ) = .ok last ∧
        ((List.range front.length).foldlM (walkStep inodes walk) (-1) = .ok parentid ↔
          resolve inodes (-1) front = some parentid) := by
    intro walk front last hrow
    refine ⟨hrow front.length last (by simp), ?_⟩
    rw [List.range_eq_range']
    apply foldlM_walkStep_eq_ok
    intro index part hpart
    rw [Nat.zero_add]
    have hindex := (List.getElem?_eq_some_iff.mp hpart).1
    exact hrow index part (by rwa [List.getElem?_append_left hindex])
  constructor
  · intro hrun
    simp only [locate, Run.bind_eq_ok, Run.pure_eq_ok, Except.ok.injEq,
      Prod.mk.injEq, Prod.exists] at hrun
    obtain ⟨n, walk, hsplit, under, hloop, last, hlast, rfl, rfl⟩ := hrun
    obtain ⟨text, hresult⟩ := split_eq_ok hsplit
    obtain ⟨path, rfl, hpath, hrow⟩ := split_path hresult
    rcases List.eq_nil_or_concat path with rfl | ⟨front, component, rfl⟩
    · rw [Walk.row, Run.require_bind_eq_ok] at hlast
      simp at hlast
    · rw [List.concat_eq_append] at *
      obtain ⟨hcomponent, hresolve⟩ := hrows hrow
      rw [show ((front ++ [component]).length : ℤ) - 1 = front.length by simp] at hlast hloop
      rw [hcomponent, Except.ok.injEq] at hlast
      subst hlast
      exact ⟨front, hpath, hresolve.mp (by simpa using hloop)⟩
  · rintro ⟨front, hpath, hresolve⟩
    obtain ⟨text, last, htext, hlast, hlength, hcolumns, -⟩ := id hpath
    obtain ⟨⟨n, walk⟩, hsplit⟩ := split_returns htext hlast hlength hcolumns
    obtain ⟨text', hresult⟩ := split_eq_ok hsplit
    obtain ⟨path, rfl, hpath', hrow⟩ := split_path hresult
    obtain rfl := hpath'.unique hpath
    obtain ⟨hcomponent, hresolve'⟩ := hrows hrow
    have hcount : ((front ++ [component]).length : ℤ) - 1 = front.length := by simp
    simp only [locate, hsplit, Run.ok_bind, hcount, Int.toNat_natCast,
      hresolve'.mpr hresolve, hcomponent]
    rfl

/-! ## The inode of a new member -/

/-- The four ways through the `switch`. -/
theorem applyTypeflag_cases {ph : HeaderPtr} {base node : Inode}
    (hrun : applyTypeflag ph base = .ok node) :
    ∃ flag, ph.typeflag = .ok flag ∧
      (flag = 53 ∧ node = { base with mode := base.mode ||| S_IFDIR } ∨
        flag = 48 ∧ (∃ data, copyData ph base.size = .ok data ∧
          node = { base with mode := base.mode ||| S_IFREG, data := data }) ∨
        flag = 49 ∧ (∃ link, hardLink ph = .ok link ∧
          node = { base with mode := base.mode ||| S_IFLNK, link := link }) ∨
        flag = 50 ∧ node = { base with mode := base.mode ||| S_IFLNK }) := by
  rw [applyTypeflag, Run.bind_eq_ok] at hrun
  obtain ⟨flag, hflag, hrun⟩ := hrun
  refine ⟨flag, hflag, ?_⟩
  split at hrun
  · rename_i h53
    simp only [Run.pure_eq_ok, Except.ok.injEq] at hrun
    exact .inl ⟨h53, hrun.symm⟩
  split at hrun
  · rename_i h48
    simp only [Run.bind_eq_ok, Run.pure_eq_ok, Except.ok.injEq] at hrun
    obtain ⟨data, hdata, rfl⟩ := hrun
    exact .inr (.inl ⟨h48, data, hdata, rfl⟩)
  split at hrun
  · rename_i hlink
    split at hrun
    · simp at hrun
    split at hrun
    · rename_i h49
      simp only [Run.bind_eq_ok, Run.pure_eq_ok, Except.ok.injEq] at hrun
      obtain ⟨link, htarget, rfl⟩ := hrun
      exact .inr (.inr (.inl ⟨h49, link, htarget, rfl⟩))
    · rename_i h49
      simp only [Run.pure_eq_ok, Except.ok.injEq] at hrun
      exact .inr (.inr (.inr ⟨hlink.resolve_left h49, hrun.symm⟩))
  · simp at hrun

/-- The fields of the inode that the type flag has no part in. -/
structure Fresh (node : Inode) (component : List Byte) (parentid : ℤ) : Prop where
  name : nameOf node = component
  parentid : node.parentid = parentid
  src : node.src.bytes = []
  compressed : node.compressed = false
  load : node.load = false

theorem Fresh.of_applyTypeflag {ph : HeaderPtr} {base node : Inode}
    {component : List Byte} {parentid : ℤ} (hbase : Fresh base component parentid)
    (hrun : applyTypeflag ph base = .ok node) : Fresh node component parentid := by
  obtain ⟨flag, -, ⟨-, rfl⟩ | ⟨-, data, -, rfl⟩ | ⟨-, link, -, rfl⟩ | ⟨-, rfl⟩⟩ :=
    applyTypeflag_cases hrun <;>
  exact ⟨hbase.name, hbase.parentid, hbase.src, hbase.compressed, hbase.load⟩

/-- A component short enough for a row of `walk` is stored whole. -/
theorem newInode_fresh {ph : HeaderPtr} {component : List Byte} {parentid : ℤ}
    {node : Inode} (hnul : 0 ∉ component) (hlength : component.length < walkColumns)
    (hrun : newInode ph component parentid = .ok node) :
    Fresh node component parentid := by
  simp only [newInode, Run.bind_eq_ok] at hrun
  obtain ⟨name, hname, link, -, size, -, uid, -, gid, -, mtime, -, mode, -, hswitch⟩ := hrun
  refine Fresh.of_applyTypeflag ⟨?_, rfl, rfl, rfl, rfl⟩ hswitch
  obtain ⟨whole, hwhole, hbytes⟩ := CArray.strncpy_whole (ε := ExitReason)
    (by decide : 127 < 128) hnul (Nat.le_of_lt_succ hlength) []
  rw [hname, Except.ok.injEq] at hwhole
  subst hwhole
  exact hbytes

/-! ## What a call can do -/

/-- The two ways a call of `MergeFile` returns: the path exists and the table
stays as it is, or one inode is appended. -/
inductive Merged (ph : HeaderPtr) (inodes : Table) (parentid : ℤ)
    (component : List Byte) : Table → Prop
  | existing (hfound : searchInode inodes component parentid ≠ -1) :
      Merged ph inodes parentid component inodes
  | added {node : Inode} (hnew : searchInode inodes component parentid = -1)
      (hroom : inodes.length < maxInodes)
      (hnode : newInode ph component parentid = .ok node) :
      Merged ph inodes parentid component (inodes ++ [node])

theorem mergeFile_eq_ok {ph : HeaderPtr} {inodes merged : Table} :
    mergeFile ph inodes = .ok merged ↔
      ∃ parentid component flag, locate ph inodes = .ok (parentid, component) ∧
        ph.typeflag = .ok flag ∧ Merged ph inodes parentid component merged := by
  simp only [mergeFile, Run.bind_eq_ok, Prod.exists]
  constructor
  · rintro ⟨parentid, component, hlocate, flag, hflag, hrun⟩
    refine ⟨parentid, component, flag, hlocate, hflag, ?_⟩
    by_cases hfound : searchInode inodes component parentid = -1
    · simp only [hfound, ne_eq, not_true, false_and, if_false,
        Run.bind_eq_ok, Run.pure_eq_ok, Except.ok.injEq] at hrun
      obtain ⟨_, hroom, node, hnode, rfl⟩ := hrun
      exact .added hfound (Run.require_eq_ok.mp hroom) hnode
    · have hsame : inodes = merged := by
        by_cases h53 : flag = 53 <;> simpa [hfound, h53] using hrun
      exact hsame ▸ .existing hfound
  · rintro ⟨parentid, component, flag, hlocate, hflag, hmerged⟩
    refine ⟨parentid, component, hlocate, flag, hflag, ?_⟩
    cases hmerged with
    | existing hfound => by_cases h53 : flag = 53 <;> simp [hfound, h53]
    | added hnew hroom hnode => simp [hnew, hroom, hnode, Run.require]

/-- The inversion that the invariants use: the member's path, its directory
part, and what happened to the table. -/
theorem mergeFile_cases {ph : HeaderPtr} {inodes merged : Table}
    (hrun : mergeFile ph inodes = .ok merged) :
    ∃ front component parentid, HeaderPath ph (front ++ [component]) ∧
      resolve inodes (-1) front = some parentid ∧
      Merged ph inodes parentid component merged := by
  obtain ⟨parentid, component, flag, hlocate, -, hmerged⟩ := mergeFile_eq_ok.mp hrun
  obtain ⟨front, hpath, hresolve⟩ := locate_eq_ok.mp hlocate
  exact ⟨front, component, parentid, hpath, hresolve, hmerged⟩

/-- A path whose last component is not found does not resolve. -/
theorem resolve_eq_none_of_new {inodes : Table} {front : List (List Byte)}
    {component : List Byte} {parentid : ℤ} (hfront : resolve inodes (-1) front = some parentid)
    (hnew : searchInode inodes component parentid = -1) :
    resolve inodes (-1) (front ++ [component]) = none := by
  by_contra hsome
  obtain ⟨id, hid⟩ := Option.ne_none_iff_exists'.mp hsome
  obtain ⟨under, hunder, hfind, hne⟩ := ParentTable.resolve_concat_eq_some.mp hid
  have hsame : parentid = under := Option.some.inj (hfront.symm.trans hunder)
  subst hsame
  exact hne (hfind.symm.trans hnew)

theorem mergeAll_append {before after : List HeaderPtr} {inodes : Table} :
    mergeAll (before ++ after) inodes = mergeAll before inodes >>= mergeAll after := by
  simp only [mergeAll, List.foldlM_append]
  rfl

@[simp]
theorem mergeAll_nil (inodes : Table) : mergeAll [] inodes = .ok inodes := rfl

theorem mergeAll_concat {headers : List HeaderPtr} {ph : HeaderPtr} {inodes : Table} :
    mergeAll (headers ++ [ph]) inodes = mergeAll headers inodes >>= mergeFile ph := by
  rw [mergeAll_append]
  congr 1
  funext middle
  simp only [mergeAll, List.foldlM_cons, List.foldlM_nil, bind_pure]

/-- Induction over the reachable tables. -/
theorem Reachable.induction {motive : Table → Prop} (hempty : motive [])
    (hstep : ∀ inodes ph merged, Reachable inodes → motive inodes →
      mergeFile ph inodes = .ok merged → motive merged)
    {inodes : Table} (hreach : Reachable inodes) : motive inodes := by
  obtain ⟨headers, hrun⟩ := hreach
  induction headers using List.reverseRecOn generalizing inodes with
  | nil =>
      rw [mergeAll_nil, Except.ok.injEq] at hrun
      exact hrun ▸ hempty
  | append_singleton headers ph ih =>
      rw [mergeAll_concat, Run.bind_eq_ok] at hrun
      obtain ⟨middle, hmiddle, hlast⟩ := hrun
      exact hstep middle ph inodes ⟨headers, hmiddle⟩ (ih hmiddle) hlast

end Tcb.MergeFile
