import Tcb.Fs2Xml.Manifest

/-!
# The forest that a manifest describes

A manifest is read back as an ordered forest: for every entry its kind, its
attributes with the ones that were not printed at their defaults, and the
entries inside it.  The table has a forest of its own, in which the entries
inside a directory are the inodes with that parent, in increasing order.
-/

namespace Tcb.Forest

open Tcb.CString
open Tcb.Inodes
open Tcb.MergeFile
open Tcb.TableShape
open Tcb.Manifest

inductive Kind
  | dir | file | link
  deriving DecidableEq

/-- What a manifest says about one entry, every value as it is written. -/
structure Label where
  kind : Kind
  name : List Byte
  mode : List Byte
  size : List Byte
  uid : List Byte
  gid : List Byte
  compressed : List Byte
  load : List Byte
  src : List Byte
  path : List Byte
  deriving DecidableEq

inductive Tree
  | node (label : Label) (inside : List Tree)

/-- `0`, the value of a number that is not printed. -/
def zero : List Byte := decimal 0

/-- What is printed of an inode of a kind: the owner of links, and the size of
directories, are left out. -/
def labelOf (kind : Kind) (node : Inode) : Label where
  kind := kind
  name := nameOf node
  mode := octal node.mode
  size := if kind = .file then decimal node.size else zero
  uid := if kind = .link then zero else decimal node.uid
  gid := if kind = .link then zero else decimal node.gid
  compressed := if kind = .file then if node.compressed then one else zero else zero
  load := if kind = .file then if node.load then one else zero else zero
  src := if kind = .file then node.src.bytes else []
  path := if kind = .link then node.link.bytes else []

/-- The tree of an inode, if it is of a kind that is printed. -/
def treesOf (node : Inode) (inside : List Tree) : List Tree :=
  if node.isDir then [.node (labelOf .dir node) inside]
  else if node.isReg then [.node (labelOf .file node) []]
  else if node.isLnk then [.node (labelOf .link node) []]
  else []

/-- The forest below an index, cut off when the nesting uses up the fuel. -/
def forest (inodes : Table) : ℕ → ℤ → List Tree
  | 0, _ => []
  | fuel + 1, under =>
      (Preorder.children Inode.parentid inodes under).flatMap fun (i : ℕ) =>
        (inodes[i]?).elim [] fun node => treesOf node (forest inodes fuel i)

/-- The forest below an index of a table. -/
def forestOf (inodes : Table) (under : ℤ) : List Tree := forest inodes (inodes.length + 1) under

theorem forest_succ {inodes : Table} (hfirst : Preorder.ParentsFirst Inode.parentid inodes)
    {fuel : ℕ} {under : ℤ} (hfuel : (inodes.length : ℤ) ≤ fuel + under + 1) :
    forest inodes (fuel + 1) under = forest inodes fuel under := by
  induction fuel generalizing under with
  | zero =>
      have hnone : Preorder.children Inode.parentid inodes under = [] := by
        rw [List.eq_nil_iff_forall_not_mem]
        intro index hchild
        have hunder := hfirst.under_lt hchild
        obtain ⟨entry, hentry, -⟩ := Preorder.mem_children_iff.mp hchild
        have hlt := (List.getElem?_eq_some_iff.mp hentry).1
        omega
      rw [forest, forest, hnone, List.flatMap_nil]
  | succ fuel ih =>
      rw [forest, forest]
      apply List.flatMap_congr
      intro child hchild
      have hunder := hfirst.under_lt hchild
      rw [ih (by omega)]

/-- The entries inside a directory are the inodes with that parent, in
increasing order. -/
theorem forestOf_eq {inodes : Table} (hfirst : Preorder.ParentsFirst Inode.parentid inodes)
    (under : ℤ) :
    forestOf inodes under =
      (Preorder.children Inode.parentid inodes under).flatMap fun (i : ℕ) =>
        (inodes[i]?).elim [] fun node => treesOf node (forestOf inodes i) := by
  rw [forestOf, forest]
  apply List.flatMap_congr
  intro child hchild
  have hunder := hfirst.under_lt hchild
  rw [forestOf, forest_succ hfirst (by omega)]

/-! ## Attributes -/

/-- An attribute that may be left out; JSON puts some of them into quotes. -/
structure Slot where
  key : List Byte
  quoted : Bool
  value : Option (List Byte)

namespace Slot

def pairs (slot : Slot) : List (List Byte × List Byte) :=
  slot.value.elim [] fun text => [(slot.key, text)]

def members (slot : Slot) : List (List Byte × Json.Value) :=
  slot.value.elim [] fun text =>
    [(slot.key, if slot.quoted then .string text else .number text)]

end Slot

/-- A number that is printed when it is not zero. -/
def optionalText (present : Bool) (text : List Byte) : Option (List Byte) :=
  if present then some text else none

def ownerSlots (node : Inode) : List Slot :=
  [⟨uidText, false, optionalText (node.uid ≠ 0) (decimal node.uid)⟩,
    ⟨gidText, false, optionalText (node.gid ≠ 0) (decimal node.gid)⟩]

/-- What is printed behind the name of an inode; the two manifests have
different words for a compressed file. -/
def slots (compressedWord : List Byte) (node : Inode) : Kind → List Slot
  | .dir => ⟨modeText, true, some (octal node.mode)⟩ :: ownerSlots node
  | .file =>
      [⟨modeText, true, some (octal node.mode)⟩,
        ⟨sizeText, false, some (decimal node.size)⟩] ++
      ownerSlots node ++
      [⟨compressedWord, false, optionalText node.compressed one⟩,
        ⟨loadText, false, optionalText node.load one⟩,
        ⟨srcText, true, optionalText (node.src.bytes ≠ []) node.src.bytes⟩]
  | .link =>
      [⟨modeText, true, some (octal node.mode)⟩,
        ⟨pathText, true, some node.link.bytes⟩]

def pairs (slots : List Slot) : List (List Byte × List Byte) := slots.flatMap Slot.pairs

/-- The attributes of an inode. -/
def attributesOf (compressedWord : List Byte) (kind : Kind) (node : Inode) :
    List (List Byte × List Byte) :=
  (nameText, nameOf node) :: pairs (slots compressedWord node kind)

def textAt (pairs : List (List Byte × List Byte)) (key : List Byte) : List Byte :=
  (pairs.lookup key).getD []

def numberAt (pairs : List (List Byte × List Byte)) (key : List Byte) : List Byte :=
  (pairs.lookup key).getD zero

/-- Attributes read back, with the defaults for those that are missing. -/
def readLabel (compressedWord : List Byte) (kind : Kind)
    (pairs : List (List Byte × List Byte)) : Label where
  kind := kind
  name := textAt pairs nameText
  mode := textAt pairs modeText
  size := numberAt pairs sizeText
  uid := numberAt pairs uidText
  gid := numberAt pairs gidText
  compressed := numberAt pairs compressedWord
  load := numberAt pairs loadText
  src := textAt pairs srcText
  path := textAt pairs pathText

theorem lookup_slot_pairs (slot : Slot) (rest : List (List Byte × List Byte))
    (key : List Byte) :
    (slot.pairs ++ rest).lookup key =
      if key = slot.key then slot.value.or (rest.lookup key) else rest.lookup key := by
  cases hvalue : slot.value with
  | none => simp [Slot.pairs, hvalue]
  | some text =>
      by_cases hkey : key = slot.key
      · simp [Slot.pairs, hvalue, hkey]
      · have hbeq : (key == slot.key) = false := by simpa using hkey
        simp [Slot.pairs, hvalue, hkey, List.lookup_cons, hbeq]

/-- The key of an attribute that a manifest may print. -/
theorem lookup_pairs (slots : List Slot) (hkeys : (slots.map Slot.key).Nodup)
    (key : List Byte) :
    (pairs slots).lookup key = (slots.find? (·.key = key)).bind Slot.value := by
  induction slots with
  | nil => rfl
  | cons slot rest ih =>
      rw [List.map_cons, List.nodup_cons] at hkeys
      rw [pairs, List.flatMap_cons, lookup_slot_pairs, ← pairs, ih hkeys.2, List.find?_cons]
      by_cases hkey : key = slot.key
      · subst hkey
        have hnone : rest.find? (·.key = slot.key) = none := by
          rw [List.find?_eq_none]
          intro other hother
          have hne : slot.key ≠ other.key :=
            fun heq => hkeys.1 (heq ▸ List.mem_map_of_mem hother)
          simpa using hne.symm
        simp [hnone]
      · have hkey' : slot.key ≠ key := Ne.symm hkey
        simp [hkey, hkey']

theorem optional_getD_number (value : ℤ) :
    (optionalText (value ≠ 0) (decimal value)).getD zero = decimal value := by
  by_cases hvalue : value = 0 <;> simp [optionalText, hvalue, zero]

theorem optional_getD_text (text : List Byte) :
    (optionalText (text ≠ []) text).getD [] = text := by
  by_cases htext : text = [] <;> simp [optionalText, htext]

theorem optional_getD_flag (flag : Bool) :
    (optionalText flag one).getD zero = if flag then one else zero := by
  cases flag <;> rfl

/-- The keys of the attributes, printed or not. -/
def keys (compressedWord : List Byte) : Kind → List (List Byte)
  | .dir => [nameText, modeText, uidText, gidText]
  | .file =>
      [nameText, modeText, sizeText, uidText, gidText, compressedWord, loadText, srcText]
  | .link => [nameText, modeText, pathText]

theorem nodup_keys {compressedWord : List Byte}
    (hword : compressedWord = compressedText ∨ compressedWord = compressedKey)
    (kind : Kind) : (keys compressedWord kind).Nodup := by
  rcases hword with rfl | rfl <;> cases kind <;> decide

theorem lookup_attributesOf {compressedWord : List Byte}
    (hword : compressedWord = compressedText ∨ compressedWord = compressedKey)
    (kind : Kind) (node : Inode) (key : List Byte) :
    (attributesOf compressedWord kind node).lookup key =
      ((⟨nameText, true, some (nameOf node)⟩ :: slots compressedWord node kind).find?
        (·.key = key)).bind Slot.value := by
  have hkeys : ((⟨nameText, true, some (nameOf node)⟩ ::
      slots compressedWord node kind : List Slot).map Slot.key) = keys compressedWord kind := by
    cases kind <;> rfl
  exact lookup_pairs _ (hkeys ▸ nodup_keys hword kind) key

/-- The attributes of an inode are read back. -/
theorem readLabel_attributesOf {compressedWord : List Byte}
    (hword : compressedWord = compressedText ∨ compressedWord = compressedKey)
    (kind : Kind) (node : Inode) :
    readLabel compressedWord kind (attributesOf compressedWord kind node) =
      labelOf kind node := by
  simp only [readLabel, textAt, numberAt, lookup_attributesOf hword]
  have huid := optional_getD_number node.uid
  have hgid := optional_getD_number node.gid
  have hcompressed := optional_getD_flag node.compressed
  have hload := optional_getD_flag node.load
  have hsrc := optional_getD_text node.src.bytes
  rw [labelOf, Label.mk.injEq]
  rcases hword with rfl | rfl
  all_goals
    cases kind with
    | dir => exact ⟨rfl, rfl, rfl, rfl, huid, hgid, rfl, rfl, rfl, rfl⟩
    | file => exact ⟨rfl, rfl, rfl, rfl, huid, hgid, hcompressed, hload, hsrc, rfl⟩
    | link => exact ⟨rfl, rfl, rfl, rfl, rfl, rfl, rfl, rfl, rfl, rfl⟩

/-! ## Reading a manifest -/

mutual

/-- The tag says what an element is. -/
def readElement : Xml.Element → Option Tree
  | .mk tag attributes children => do
      let inside ← readElements children
      if tag = dirText then return .node (readLabel compressedText .dir attributes) inside
      else if tag = fileText then return .node (readLabel compressedText .file attributes) inside
      else if tag = linkText then return .node (readLabel compressedText .link attributes) inside
      else none

def readElements : List Xml.Element → Option (List Tree)
  | [] => some []
  | element :: rest => do
      let tree ← readElement element
      let trees ← readElements rest
      return tree :: trees

end

/-- The document element, with the folder of the files. -/
def readDocument : Xml.Element → Option (List Byte × List Tree)
  | .mk tag attributes children => do
      let trees ← readElements children
      if tag = rootText then return (textAt attributes srcText, trees) else none

/-- The text of a string or a number. -/
def scalar : Json.Value → Option (List Byte)
  | .string text => some text
  | .number text => some text
  | _ => none

def scalars (members : List (List Byte × Json.Value)) : List (List Byte × List Byte) :=
  members.filterMap fun member => (scalar member.2).map fun text => (member.1, text)

mutual

/-- An object with a list of children is a directory, one with a path is a
link. -/
def readValue : Json.Value → Option Tree
  | .object members => do
      let child ← readChild members
      match child with
      | some inside => return .node (readLabel compressedKey .dir (scalars members)) inside
      | none =>
          if ((scalars members).lookup pathText).isSome then
            return .node (readLabel compressedKey .link (scalars members)) []
          else return .node (readLabel compressedKey .file (scalars members)) []
  | _ => none

def readChild : List (List Byte × Json.Value) → Option (Option (List Tree))
  | [] => some none
  | (key, value) :: rest =>
      if key = childText then some <$> readItems value else readChild rest

def readItems : Json.Value → Option (List Tree)
  | .array items => readValues items
  | _ => none

def readValues : List Json.Value → Option (List Tree)
  | [] => some []
  | value :: rest => do
      let tree ← readValue value
      let trees ← readValues rest
      return tree :: trees

end

/-- The whole manifest, with the folder of the files. -/
def readManifest : Json.Value → Option (List Byte × List Tree)
  | .object members => do
      let items ← members.lookup fsText
      let trees ← readItems items
      return (textAt (scalars members) srcText, trees)
  | _ => none

theorem readElements_append {left right : List Xml.Element} {trees more : List Tree}
    (hleft : readElements left = some trees) (hright : readElements right = some more) :
    readElements (left ++ right) = some (trees ++ more) := by
  induction left generalizing trees with
  | nil =>
      rw [readElements, Option.some.injEq] at hleft
      rw [← hleft]
      exact hright
  | cons element rest ih =>
      simp only [readElements, Option.bind_eq_bind, Option.bind_eq_some_iff,
        Option.pure_def, Option.some.injEq] at hleft
      obtain ⟨tree, htree, others, hothers, rfl⟩ := hleft
      simp [readElements, htree, ih hothers]

theorem readValues_append {left right : List Json.Value} {trees more : List Tree}
    (hleft : readValues left = some trees) (hright : readValues right = some more) :
    readValues (left ++ right) = some (trees ++ more) := by
  induction left generalizing trees with
  | nil =>
      rw [readValues, Option.some.injEq] at hleft
      rw [← hleft]
      exact hright
  | cons value rest ih =>
      simp only [readValues, Option.bind_eq_bind, Option.bind_eq_some_iff,
        Option.pure_def, Option.some.injEq] at hleft
      obtain ⟨tree, htree, others, hothers, rfl⟩ := hleft
      simp [readValues, htree, ih hothers]

/-! ## The entry of an inode -/

/-- The members of the object that is printed for an inode, but for the list
of children. -/
def valueMembers (kind : Kind) (node : Inode) : List (List Byte × Json.Value) :=
  (nameText, .string (nameOf node)) :: (slots compressedKey node kind).flatMap Slot.members

theorem scalars_append (left right : List (List Byte × Json.Value)) :
    scalars (left ++ right) = scalars left ++ scalars right :=
  List.filterMap_append

theorem scalars_members (slot : Slot) : scalars slot.members = slot.pairs := by
  obtain ⟨key, quoted, value⟩ := slot
  cases value <;> cases quoted <;> rfl

theorem scalars_valueMembers (kind : Kind) (node : Inode) :
    scalars (valueMembers kind node) = attributesOf compressedKey kind node := by
  have hslots : ∀ slots : List Slot, scalars (slots.flatMap Slot.members) = pairs slots := by
    intro slots
    induction slots with
    | nil => rfl
    | cons slot rest ih =>
        rw [List.flatMap_cons, scalars_append, scalars_members, ih]
        rfl
  rw [attributesOf, ← hslots]
  rfl

theorem readChild_append {left right : List (List Byte × Json.Value)}
    (hkeys : ∀ member ∈ left, member.1 ≠ childText) :
    readChild (left ++ right) = readChild right := by
  induction left with
  | nil => rfl
  | cons member rest ih =>
      obtain ⟨key, value⟩ := member
      rw [List.forall_mem_cons] at hkeys
      rw [List.cons_append, readChild, if_neg hkeys.1]
      exact ih hkeys.2

theorem valueMembers_ne_child (kind : Kind) (node : Inode) :
    ∀ member ∈ valueMembers kind node, member.1 ≠ childText := by
  have hslot : ∀ slot : Slot, ∀ member ∈ slot.members, member.1 = slot.key := by
    rintro ⟨key, quoted, value⟩ member hmember
    cases value with
    | none => simp [Slot.members] at hmember
    | some text => simpa [Slot.members] using congrArg Prod.fst (List.mem_singleton.mp hmember)
  have hchild : childText ∉ nameText :: (slots compressedKey node kind).map Slot.key := by
    have hkeys : nameText :: (slots compressedKey node kind).map Slot.key =
        keys compressedKey kind := by
      cases kind <;> rfl
    rw [hkeys]
    cases kind <;> decide
  intro member hmember heq
  apply hchild
  rw [valueMembers, List.mem_cons, List.mem_flatMap] at hmember
  rcases hmember with rfl | ⟨slot, hmem, hmember⟩
  · rw [← heq]
    exact List.mem_cons_self
  · rw [← heq, hslot slot member hmember]
    exact List.mem_cons_of_mem _ (List.mem_map_of_mem hmem)

theorem readValue_dir {node : Inode} {items : List Json.Value} {inside : List Tree}
    (hitems : readValues items = some inside) :
    readValue (.object (valueMembers .dir node ++ [(childText, .array items)])) =
      some (.node (labelOf .dir node) inside) := by
  have hscalars : scalars (valueMembers .dir node ++ [(childText, .array items)]) =
      attributesOf compressedKey .dir node := by
    rw [scalars_append, scalars_valueMembers]
    exact List.append_nil _
  have hchild : readChild (valueMembers .dir node ++ [(childText, .array items)]) =
      some (some inside) := by
    rw [readChild_append (valueMembers_ne_child .dir node), readChild, if_pos rfl,
      readItems, hitems]
    rfl
  rw [readValue, hchild, hscalars, ← readLabel_attributesOf (.inr rfl)]
  rfl

theorem readValue_leaf {kind : Kind} (hkind : kind ≠ .dir) (node : Inode) :
    readValue (.object (valueMembers kind node)) = some (.node (labelOf kind node) []) := by
  have hchild : readChild (valueMembers kind node) = some none := by
    have happend : readChild (valueMembers kind node ++ []) = some none :=
      readChild_append (valueMembers_ne_child kind node)
    rwa [List.append_nil] at happend
  rw [readValue, hchild, scalars_valueMembers, ← readLabel_attributesOf (.inr rfl)]
  simp only [Option.bind_eq_bind, Option.bind_some, lookup_attributesOf (.inr rfl)]
  cases kind with
  | dir => exact absurd rfl hkind
  | file => rfl
  | link => rfl

end Tcb.Forest
