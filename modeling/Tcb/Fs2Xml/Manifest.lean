import Tcb.Fs2Xml.Paths
import Tcb.Fs2Xml.TableShape
import Tcb.Core.Json
import Tcb.Core.Xml

/-!
# Printing the two manifests

`WalkXML` and `WalkJSON` print the inode table as a tree, one by nesting tags
and one by nesting lists, with a countdown of the siblings that are left for the
commas.  The output is a sequence of tokens that spell the printed bytes; the
inodes whose turn it was are logged beside it.
-/

namespace Tcb.Manifest

open Tcb.CString
open Tcb.Inodes
open Tcb.MergeFile
open Tcb.Paths
open Tcb.TableShape

/-- The file that is printed to. -/
structure Printer (τ : Type) where
  out : List τ
  visited : List ℕ

namespace Printer

variable {τ : Type}

def print (fp : Printer τ) (tokens : List τ) : Printer τ :=
  { fp with out := fp.out ++ tokens }

def visit (fp : Printer τ) (i : ℕ) : Printer τ :=
  { fp with visited := fp.visited ++ [i] }

end Printer

/-! ## Numbers -/

/-- `%o`. -/
def octal (mode : Mode) : List Byte := ascii (Nat.toDigits 8 mode.toNat)

/-- `%i`. -/
def decimal (value : ℤ) : List Byte :=
  if value < 0 then 45 :: ascii (Nat.toDigits 10 value.natAbs)
  else ascii (Nat.toDigits 10 value.natAbs)

/-- `IsEmpty`: no inode has the given parent. -/
def isEmpty (inodes : Table) (parentid : ℤ) : Bool :=
  inodes.all fun node => node.parentid ≠ parentid

/-- The names that are printed around the values. -/
def nameText : List Byte := ascii ['n', 'a', 'm', 'e']
def modeText : List Byte := ascii ['m', 'o', 'd', 'e']
def sizeText : List Byte := ascii ['s', 'i', 'z', 'e']
def uidText : List Byte := ascii ['u', 'i', 'd']
def gidText : List Byte := ascii ['g', 'i', 'd']
def loadText : List Byte := ascii ['l', 'o', 'a', 'd']
def srcText : List Byte := ascii ['s', 'r', 'c']
def pathText : List Byte := ascii ['p', 'a', 't', 'h']
def one : List Byte := ascii ['1']

/-- `"fs/"`. -/
def fsSlash : List Byte := ascii ['f', 's', '/']

/-! ## `WalkXML` -/

section XML

open Tcb.Xml

def dirText : List Byte := ascii ['D', 'i', 'r']
def fileText : List Byte := ascii ['F', 'i', 'l', 'e']
def linkText : List Byte := ascii ['L', 'i', 'n', 'k']
def rootText : List Byte := ascii ['F', 'S']
def compressedText : List Byte :=
  ascii ['c', 'o', 'm', 'p', 'r', 'e', 's', 's', 'e', 'd']

def newlineXML : Token := .space (ascii ['\n'])

/-- `PrintIdent`: a tab for every level. -/
def printIdentXML (sub : ℕ) : List Token := [.space (List.replicate sub 9)]

/-- ` uid='%i'` and ` gid='%i'`, when they are not zero. -/
def ownerXML (node : Inode) : List Token :=
  (if node.uid ≠ 0 then [.attr uidText (decimal node.uid)] else []) ++
  (if node.gid ≠ 0 then [.attr gidText (decimal node.gid)] else [])

/-- `<Dir name='%s' mode='%o'` and the owner. -/
def dirXML (node : Inode) : List Token :=
  [.start dirText, .attr nameText (nameOf node), .attr modeText (octal node.mode)] ++
  ownerXML node

/-- `<File name='%s' mode='%o' size='%i'` and the optional attributes. -/
def fileXML (node : Inode) : List Token :=
  [.start fileText, .attr nameText (nameOf node), .attr modeText (octal node.mode),
    .attr sizeText (decimal node.size)] ++
  ownerXML node ++
  (if node.compressed then [.attr compressedText one] else []) ++
  (if node.load then [.attr loadText one] else []) ++
  (if node.src.bytes ≠ [] then [.attr srcText node.src.bytes] else []) ++
  [.selfClose, newlineXML]

/-- `<Link name='%s' mode='%o' path='%s' />`. -/
def linkXML (node : Inode) : List Token :=
  [.start linkText, .attr nameText (nameOf node), .attr modeText (octal node.mode),
    .attr pathText node.link.bytes, .space (ascii [' ']), .selfClose, newlineXML]

/-- The body of the loop of `WalkXML`; `walk` is the recursive call.  An inode
of another type prints nothing. -/
def walkXMLEntry (inodes : Table)
    (walk : ℤ → ℕ → Printer Token → Run ExitReason (Printer Token))
    (parentid : ℤ) (sub : ℕ) (fp : Printer Token) (i : ℕ) :
    Run ExitReason (Printer Token) := do
  let node ← entry inodes i
  if node.parentid ≠ parentid then return fp
  else if node.isDir then do
    let fp := (fp.visit i).print (printIdentXML sub ++ dirXML node ++ [.close])
    let fp := if isEmpty inodes i then fp else fp.print [newlineXML]
    let fp ← walk i (sub + 1) fp
    let fp := if isEmpty inodes i then fp else fp.print (printIdentXML sub)
    return fp.print [.finish dirText, newlineXML]
  else if node.isReg then
    return (fp.visit i).print (printIdentXML sub ++ fileXML node)
  else if node.isLnk then
    return (fp.visit i).print (printIdentXML sub ++ linkXML node)
  else return fp.visit i

/-- `WalkXML(fp, parentid, sub)`. -/
def walkXML (inodes : Table) : ℕ → ℤ → ℕ → Printer Token →
    Run ExitReason (Printer Token)
  | 0, _, _, _ => Run.outOfFuel
  | fuel + 1, parentid, sub, fp =>
      (List.range inodes.length).foldlM
        (walkXMLEntry inodes (walkXML inodes fuel) parentid sub) fp

/-- `CreateXML`, once the file is open. -/
def createXML (inodes : Table) : Run ExitReason (Printer Token) := do
  let fp : Printer Token := { out := [], visited := [] }
  let fp := fp.print [.start rootText, .attr srcText fsSlash, .close, newlineXML]
  let fp ← walkXML inodes (inodes.length + 1) (-1) 1 fp
  return fp.print [.finish rootText, newlineXML]

end XML

/-! ## `WalkJSON` -/

section JSON

open Tcb.Json

def compressedKey : List Byte := ascii ['c']
def childText : List Byte := ascii ['c', 'h', 'i', 'l', 'd']
def fsText : List Byte := ascii ['f', 's']

def newlineJSON : Token := .space (ascii ['\n'])
def blankJSON : Token := .space (ascii [' '])

def printIdentJSON (sub : ℕ) : List Token := [.space (List.replicate sub 9)]

/-- `, "uid":%i` and `, "gid":%i`, when they are not zero. -/
def ownerJSON (node : Inode) : List Token :=
  (if node.uid ≠ 0 then
    [.comma, blankJSON, .string uidText, .colon, .number (decimal node.uid)] else []) ++
  (if node.gid ≠ 0 then
    [.comma, blankJSON, .string gidText, .colon, .number (decimal node.gid)] else [])

/-- `{ "name":"%s", "mode":"%o"`. -/
def headJSON (node : Inode) : List Token :=
  [.lbrace, blankJSON, .string nameText, .colon, .string (nameOf node),
    .comma, blankJSON, .string modeText, .colon, .string (octal node.mode)]

/-- The entry of a regular file. -/
def fileJSON (node : Inode) : List Token :=
  headJSON node ++
  [.comma, blankJSON, .string sizeText, .colon, .number (decimal node.size)] ++
  ownerJSON node ++
  (if node.compressed then
    [.comma, blankJSON, .string compressedKey, .colon, .number one] else []) ++
  (if node.load then
    [.comma, blankJSON, .string loadText, .colon, .number one] else []) ++
  (if node.src.bytes ≠ [] then
    [.comma, blankJSON, .string srcText, .colon, .string node.src.bytes] else []) ++
  [.rbrace]

/-- The entry of a symbolic link. -/
def linkJSON (node : Inode) : List Token :=
  headJSON node ++
  [.comma, blankJSON, .string pathText, .colon, .string node.link.bytes, .rbrace]

/-- The first loop: the number of inodes with the given parent. -/
def countChildren (inodes : Table) (parentid : ℤ) : ℕ :=
  inodes.countP fun node => node.parentid = parentid

/-- What separates an entry from the next, when `n` siblings are left. -/
def separatorJSON (n : ℤ) : List Token :=
  if n = 0 then [newlineJSON] else [.comma, newlineJSON]

/-- What `WalkJSON` prints for one inode; `walk` is the recursive call. -/
def entryJSON (inodes : Table)
    (walk : ℤ → ℕ → Printer Token → Run ExitReason (Printer Token))
    (sub i : ℕ) (node : Inode) (fp : Printer Token) :
    Run ExitReason (Printer Token) :=
  if node.isDir then
    let fp := fp.print (printIdentJSON sub ++ headJSON node ++ ownerJSON node)
    if isEmpty inodes i then
      return fp.print [.comma, blankJSON, .string childText, .colon, .lbracket,
        .rbracket, blankJSON, .rbrace]
    else do
      let fp := fp.print [.comma, blankJSON, .string childText, .colon, .lbracket,
        newlineJSON]
      let fp ← walk i (sub + 1) fp
      return fp.print (printIdentJSON sub ++ [.rbracket, .rbrace])
  else if node.isReg then
    return fp.print (printIdentJSON sub ++ fileJSON node)
  else if node.isLnk then
    return fp.print (printIdentJSON sub ++ linkJSON node)
  else Run.exit .unknownFileTyp

/-- The body of the second loop of `WalkJSON`.  The second component of its
state is the countdown of siblings. -/
def walkJSONEntry (inodes : Table)
    (walk : ℤ → ℕ → Printer Token → Run ExitReason (Printer Token))
    (parentid : ℤ) (sub : ℕ) (state : Printer Token × ℤ) (i : ℕ) :
    Run ExitReason (Printer Token × ℤ) := do
  let node ← entry inodes i
  if node.parentid ≠ parentid then return state
  else do
    let n := state.2 - 1
    let fp ← entryJSON inodes walk sub i node (state.1.visit i)
    return (fp.print (separatorJSON n), n)

/-- `WalkJSON(fp, parentid, sub)`. -/
def walkJSON (inodes : Table) : ℕ → ℤ → ℕ → Printer Token →
    Run ExitReason (Printer Token)
  | 0, _, _, _ => Run.outOfFuel
  | fuel + 1, parentid, sub, fp =>
      Prod.fst <$> (List.range inodes.length).foldlM
        (walkJSONEntry inodes (walkJSON inodes fuel) parentid sub)
        (fp, (countChildren inodes parentid : ℤ))

/-- `CreateJSON`, once the file is open. -/
def createJSON (inodes : Table) : Run ExitReason (Printer Token) := do
  let fp : Printer Token := { out := [], visited := [] }
  let fp := fp.print [.lbrace, .string srcText, .colon, .string fsSlash, .comma,
    blankJSON, .string fsText, .colon, .lbracket, newlineJSON]
  let fp ← walkJSON inodes (inodes.length + 1) (-1) 1 fp
  return fp.print [.rbracket, .rbrace, newlineJSON]

end JSON

/-! ## Which inodes the walks visit -/

theorem children_eq_filter (inodes : Table) (parentid : ℤ) :
    Preorder.children Inode.parentid inodes parentid =
      (List.range inodes.length).filter fun i =>
        (inodes[i]?).any fun node => node.parentid = parentid := rfl

/-- An index that the loop over the table passes over. -/
theorem exists_of_not_child {inodes : Table} {parentid : ℤ} {i : ℕ}
    (hmem : i ∈ List.range inodes.length)
    (hnot : (inodes[i]?).any (fun node => node.parentid = parentid) = false) :
    ∃ node, inodes[i]? = some node ∧ node.parentid ≠ parentid := by
  rw [List.mem_range] at hmem
  refine ⟨inodes[i], List.getElem?_eq_getElem hmem, ?_⟩
  simpa [hmem] using hnot

theorem flatMap_filter {α β : Type} (keep : α → Bool) (emit : α → List β)
    (items : List α) :
    (items.filter keep).flatMap emit =
      items.flatMap fun item => if keep item then emit item else [] := by
  induction items with
  | nil => rfl
  | cons item rest ih => by_cases hkeep : keep item <;> simp [hkeep, ih]

theorem entryXML_visited {inodes : Table}
    {walk : ℤ → ℕ → Printer Xml.Token → Run ExitReason (Printer Xml.Token)}
    {below : ℤ → List ℕ}
    (hwalk : ∀ (i : ℕ) sub fp next, walk i sub fp = .ok next →
      next.visited = fp.visited ++ below i)
    {parentid : ℤ} {sub i : ℕ} {fp next : Printer Xml.Token}
    (hrun : walkXMLEntry inodes walk parentid sub fp i = .ok next) :
    next.visited = fp.visited ++
      if (inodes[i]?).any (fun node => node.parentid = parentid) then
        i :: if Preorder.opensAt Inode.isDir inodes i then below i else []
      else [] := by
  rw [walkXMLEntry, Run.bind_eq_ok] at hrun
  obtain ⟨node, hnode, hrun⟩ := hrun
  rw [entry_eq_ok] at hnode
  rw [Preorder.opensAt, hnode, Option.any_some, Option.any_some]
  by_cases hchild : node.parentid = parentid
  · rw [if_neg (by simpa using hchild)] at hrun
    by_cases hdir : node.isDir = true
    · simp only [hdir, if_true, Run.bind_eq_ok, Run.pure_eq_ok, Except.ok.injEq] at hrun
      obtain ⟨inner, hinner, rfl⟩ := hrun
      have hvisited := hwalk _ _ _ _ hinner
      by_cases hempty : isEmpty inodes i = true <;>
        simp_all [Printer.print, Printer.visit]
    · simp only [hdir, Bool.false_eq_true, if_false] at hrun
      split at hrun
      · simp only [Run.pure_eq_ok, Except.ok.injEq] at hrun
        simp [← hrun, Printer.print, Printer.visit, hchild, hdir]
      · split at hrun <;> simp only [Run.pure_eq_ok, Except.ok.injEq] at hrun <;>
          simp [← hrun, Printer.print, Printer.visit, hchild, hdir]
  · rw [if_pos (by simpa using hchild), Run.pure_eq_ok, Except.ok.injEq] at hrun
    simp [← hrun, hchild]

theorem walkXML_visited {inodes : Table} {fuel sub : ℕ} {parentid : ℤ}
    {fp next : Printer Xml.Token} (hrun : walkXML inodes fuel parentid sub fp = .ok next) :
    next.visited = fp.visited ++ visits inodes fuel parentid := by
  induction fuel generalizing parentid sub fp next with
  | zero => simp [walkXML] at hrun
  | succ fuel ih =>
      rw [visits, Preorder.preorder, children_eq_filter, flatMap_filter]
      exact Run.foldlM_log Printer.visited hrun fun state i after _ hstep =>
        entryXML_visited (fun i sub fp next => ih) hstep

theorem not_isEmpty_of_child {inodes : Table} {i : ℕ} {parentid : ℤ} {node : Inode}
    (hnode : inodes[i]? = some node) (hchild : node.parentid = parentid) :
    isEmpty inodes parentid = false := by
  rw [isEmpty, List.all_eq_false]
  exact ⟨node, List.mem_of_getElem? hnode, by simp [hchild]⟩

theorem children_eq_nil_of_isEmpty {inodes : Table} {parentid : ℤ}
    (hempty : isEmpty inodes parentid = true) :
    Preorder.children Inode.parentid inodes parentid = [] := by
  rw [List.eq_nil_iff_forall_not_mem]
  intro i hi
  obtain ⟨node, hnode, hchild⟩ := Preorder.mem_children_iff.mp hi
  rw [not_isEmpty_of_child hnode hchild] at hempty
  exact Bool.false_ne_true hempty

theorem preorder_of_isEmpty {inodes : Table} {parentid : ℤ}
    (hempty : isEmpty inodes parentid = true) (fuel : ℕ) :
    visits inodes fuel parentid = [] := by
  cases fuel with
  | zero => rfl
  | succ fuel => rw [visits, Preorder.preorder, children_eq_nil_of_isEmpty hempty]; rfl

theorem entryJSON_visited {inodes : Table}
    {walk : ℤ → ℕ → Printer Json.Token → Run ExitReason (Printer Json.Token)} {fuel : ℕ}
    (hwalk : ∀ (i : ℕ) sub fp next, walk i sub fp = .ok next →
      next.visited = fp.visited ++ visits inodes fuel i)
    {sub i : ℕ} {node : Inode} {fp next : Printer Json.Token}
    (hrun : entryJSON inodes walk sub i node fp = .ok next) :
    next.visited = fp.visited ++ if node.isDir then visits inodes fuel i else [] := by
  rw [entryJSON] at hrun
  by_cases hdir : node.isDir = true
  · simp only [hdir, if_true] at hrun ⊢
    by_cases hempty : isEmpty inodes i = true
    · simp only [hempty, if_true, Run.pure_eq_ok, Except.ok.injEq] at hrun
      simp [← hrun, Printer.print, preorder_of_isEmpty hempty]
    · simp only [hempty, Bool.false_eq_true, if_false, Run.bind_eq_ok, Run.pure_eq_ok,
        Except.ok.injEq] at hrun
      obtain ⟨inner, hinner, rfl⟩ := hrun
      have hvisited := hwalk _ _ _ _ hinner
      simpa [Printer.print] using hvisited
  · simp only [hdir, Bool.false_eq_true, if_false] at hrun ⊢
    split at hrun
    · simp only [Run.pure_eq_ok, Except.ok.injEq] at hrun
      simp [← hrun, Printer.print]
    · split at hrun
      · simp only [Run.pure_eq_ok, Except.ok.injEq] at hrun
        simp [← hrun, Printer.print]
      · simp at hrun

theorem walkJSON_visited {inodes : Table} {fuel sub : ℕ} {parentid : ℤ}
    {fp next : Printer Json.Token}
    (hrun : walkJSON inodes fuel parentid sub fp = .ok next) :
    next.visited = fp.visited ++ visits inodes fuel parentid := by
  induction fuel generalizing parentid sub fp next with
  | zero => simp [walkJSON] at hrun
  | succ fuel ih =>
      rw [walkJSON, Run.map_eq_ok] at hrun
      obtain ⟨final, hloop, rfl⟩ := hrun
      rw [visits, Preorder.preorder, children_eq_filter, flatMap_filter]
      apply Run.foldlM_log (fun state => state.1.visited) hloop
      intro state i after _ hstep
      rw [walkJSONEntry, Run.bind_eq_ok] at hstep
      obtain ⟨node, hnode, hstep⟩ := hstep
      rw [entry_eq_ok] at hnode
      rw [Preorder.opensAt, hnode, Option.any_some, Option.any_some]
      by_cases hchild : node.parentid = parentid
      · rw [if_neg (by simpa using hchild)] at hstep
        simp only [Run.bind_eq_ok, Run.pure_eq_ok, Except.ok.injEq] at hstep
        obtain ⟨inner, hinner, rfl⟩ := hstep
        have hvisited := entryJSON_visited (fun i sub fp next => ih) hinner
        simp only [Printer.print, hvisited]
        simp [Printer.visit, hchild]
      · rw [if_pos (by simpa using hchild), Run.pure_eq_ok, Except.ok.injEq] at hstep
        simp [← hstep, hchild]

/-! ## Every walk ends -/

/-- `WalkXML` has no way to stop but to return. -/
theorem walkXML_returns {inodes : Table} (hshape : Shape inodes) {fuel : ℕ}
    {parentid : ℤ} (hroot : -1 ≤ parentid) (hlt : parentid < inodes.length)
    (hfuel : (inodes.length : ℤ) ≤ fuel + parentid) (sub : ℕ) (fp : Printer Xml.Token) :
    Run.Returns (walkXML inodes fuel parentid sub fp) := by
  induction fuel generalizing parentid sub fp with
  | zero =>
      push_cast at hfuel
      omega
  | succ fuel ih =>
      suffices hloop : ∃ final, (List.range inodes.length).foldlM
          (walkXMLEntry inodes (walkXML inodes fuel) parentid sub) fp = .ok final ∧ True by
        obtain ⟨final, hfinal, -⟩ := hloop
        exact ⟨final, hfinal⟩
      apply Run.foldlM_returns (fun _ => True) trivial
      intro reached i hi _
      rw [List.mem_range] at hi
      have hnode : inodes[i]? = some inodes[i] := by simp [hi]
      have hparent := hshape.parent_lt i _ hnode
      rw [walkXMLEntry, entry_eq_ok.mpr hnode, Run.ok_bind]
      by_cases hchild : inodes[i].parentid = parentid
      · rw [if_neg (by simpa using hchild)]
        by_cases hdir : inodes[i].isDir = true
        · simp only [hdir, if_true]
          obtain ⟨inner, hinner⟩ := @ih i (by omega) (by omega) (by omega)
            (sub + 1) (if isEmpty inodes i then
              (reached.visit i).print (printIdentXML sub ++ dirXML inodes[i] ++ [.close])
            else ((reached.visit i).print
              (printIdentXML sub ++ dirXML inodes[i] ++ [.close])).print [newlineXML])
          rw [hinner]
          exact ⟨_, rfl, trivial⟩
        · simp only [hdir, Bool.false_eq_true, if_false]
          split
          · exact ⟨_, rfl, trivial⟩
          · split <;> exact ⟨_, rfl, trivial⟩
      · rw [if_pos (by simpa using hchild)]
        exact ⟨_, rfl, trivial⟩

theorem ends_walkJSON {inodes : Table} (hshape : Shape inodes) {fuel : ℕ}
    {parentid : ℤ} (hroot : -1 ≤ parentid) (hlt : parentid < inodes.length)
    (hfuel : (inodes.length : ℤ) ≤ fuel + parentid) (sub : ℕ) (fp : Printer Json.Token) :
    Run.Ends (walkJSON inodes fuel parentid sub fp) := by
  induction fuel generalizing parentid sub fp with
  | zero =>
      push_cast at hfuel
      omega
  | succ fuel ih =>
      rw [walkJSON, map_eq_pure_bind]
      refine Run.ends_bind (Run.ends_foldlM (fun _ => True) trivial ?_
        fun _ _ _ _ _ _ => trivial) (by simp)
      rintro ⟨reached, n⟩ i - -
      rw [walkJSONEntry]
      apply Run.ends_bind (ends_entry _ _)
      intro node hnode
      have hindex := (List.getElem?_eq_some_iff.mp (entry_eq_ok.mp hnode)).1
      have hparent := hshape.parent_lt i node (entry_eq_ok.mp hnode)
      split
      · simp
      rename_i hchild
      rw [ne_eq, not_not] at hchild
      refine Run.ends_bind ?_ (by simp)
      rw [entryJSON]
      split
      · dsimp only
        split
        · simp
        · exact Run.ends_bind (ih (by omega) (by omega) (by omega) _ _) (by simp)
      split
      · simp
      split <;> simp

theorem entryJSON_returns {inodes : Table}
    {walk : ℤ → ℕ → Printer Json.Token → Run ExitReason (Printer Json.Token)} {i : ℕ}
    {node : Inode} (hknown : node.isDir = true ∨ node.isReg = true ∨ node.isLnk = true)
    (hwalk : ∀ sub fp, Run.Returns (walk i sub fp)) (sub : ℕ) (fp : Printer Json.Token) :
    Run.Returns (entryJSON inodes walk sub i node fp) := by
  rw [entryJSON]
  by_cases hdir : node.isDir = true
  · simp only [hdir, if_true]
    split
    · exact ⟨_, rfl⟩
    · obtain ⟨inner, hinner⟩ := hwalk (sub + 1)
        ((fp.print (printIdentJSON sub ++ headJSON node ++ ownerJSON node)).print
          [.comma, blankJSON, .string childText, .colon, .lbracket, newlineJSON])
      simp only [hinner]
      exact ⟨_, rfl⟩
  · rw [if_neg hdir]
    by_cases hreg : node.isReg = true
    · rw [if_pos hreg]
      exact ⟨_, rfl⟩
    · rw [if_neg hreg, if_pos ((hknown.resolve_left hdir).resolve_left hreg)]
      exact ⟨_, rfl⟩

/-- `WalkJSON` returns when it meets no inode of another type. -/
theorem walkJSON_returns {inodes : Table} (hshape : Shape inodes)
    (hknown : ∀ node ∈ inodes,
      node.isDir = true ∨ node.isReg = true ∨ node.isLnk = true) {fuel : ℕ}
    {parentid : ℤ} (hroot : -1 ≤ parentid) (hlt : parentid < inodes.length)
    (hfuel : (inodes.length : ℤ) ≤ fuel + parentid) (sub : ℕ) (fp : Printer Json.Token) :
    Run.Returns (walkJSON inodes fuel parentid sub fp) := by
  induction fuel generalizing parentid sub fp with
  | zero =>
      push_cast at hfuel
      omega
  | succ fuel ih =>
      suffices hloop : ∃ final, (List.range inodes.length).foldlM
          (walkJSONEntry inodes (walkJSON inodes fuel) parentid sub)
          (fp, (countChildren inodes parentid : ℤ)) = .ok final ∧ True by
        obtain ⟨final, hfinal, -⟩ := hloop
        exact ⟨final.1, by rw [walkJSON, hfinal, Run.map_ok]⟩
      refine Run.foldlM_returns (fun _ => True) trivial ?_
      rintro ⟨reached, n⟩ i hi -
      rw [List.mem_range] at hi
      have hnode : inodes[i]? = some inodes[i] := by simp [hi]
      have hparent := hshape.parent_lt i _ hnode
      rw [walkJSONEntry, entry_eq_ok.mpr hnode, Run.ok_bind]
      by_cases hchild : inodes[i].parentid = parentid
      · rw [if_neg (by simpa using hchild)]
        obtain ⟨next, hnext⟩ : Run.Returns (entryJSON inodes (walkJSON inodes fuel) sub i
            inodes[i] (reached.visit i)) :=
          entryJSON_returns (hknown inodes[i] (List.getElem_mem hi))
            (fun sub fp => @ih i (by omega) (by omega) (by omega) sub fp) sub _
        simp only [hnext]
        exact ⟨_, rfl, trivial⟩
      · rw [if_pos (by simpa using hchild)]
        exact ⟨_, rfl, trivial⟩

end Tcb.Manifest
