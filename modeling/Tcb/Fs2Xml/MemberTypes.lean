import Tcb.Fs2Xml.Visits

/-!
# The type of an inode

`MergeFile` adds the bits of the member's type to the number in the mode field
and removes none.  Bits of another type that an archive stores there stay, and
the three types overlap, so the inode can turn into one of a fourth type that
the walks do not know.
-/

namespace Tcb.MemberTypes

open Tcb.CString
open Tcb.Strtol
open Tcb.Inodes
open Tcb.Split
open Tcb.MergeFile
open Tcb.TableShape
open Tcb.Members
open Tcb.Manifest

/-- The type bits of the mode field are among those of the member's type. -/
def BitsFit (ph : HeaderPtr) (kind : Kind) : Prop :=
  ∀ mode, (strtol 8 (ph.from' .mode) : Run ExitReason ℤ) = .ok mode →
    (BitVec.ofInt 32 mode &&& S_IFMT) ||| kind.bits = kind.bits

/-- The same for a member that is new to the table. -/
def NewBitsFit (ph : HeaderPtr) (inodes : Table) : Prop :=
  ∀ path, HeaderPath ph path → resolve inodes (-1) path = none →
    ∀ kind : Kind, ph.typeflag = .ok kind.typeflag → BitsFit ph kind

/-- The tag of the element of an inode. -/
def tagOf (inodes : Table) (i : ℕ) : Option (List Byte) :=
  (inodes[i]?).bind fun node =>
    if node.isDir then some dirText
    else if node.isReg then some fileText
    else if node.isLnk then some linkText
    else none

def startTag : Xml.Token → Option (List Byte)
  | .start tag => some tag
  | _ => none

/-- The elements of a manifest in the order of their start tags. -/
def startTags (tokens : List Xml.Token) : List (List Byte) := tokens.filterMap startTag

/-- What holds of a table in which every inode has the type of its member: the
JSON walk does not give up, the XML walk prints an element for every inode it
visits, and there is data for every file that is not empty.  The manifests are
those of the table, or of what `WalkDir` has made of it. -/
structure TypesKept (inodes : Table) : Prop where
  json : ∀ walked, SameTree inodes walked → Run.Returns (createJSON walked)
  xml : ∀ walked fp, SameTree inodes walked → createXML walked = .ok fp →
    (startTags fp.out).map some = some rootText :: fp.visited.map (tagOf walked)
  data : ∀ node ∈ inodes, node.isReg = true → node.size ≠ 0 → node.data ≠ none

/-! ## One inode -/

theorem kind_bits_and (kind : Kind) : kind.bits &&& S_IFMT = kind.bits := by
  cases kind <;> decide

theorem or_and_S_IFMT (field : Mode) (kind : Kind) :
    (field ||| kind.bits) &&& S_IFMT = (field &&& S_IFMT) ||| kind.bits := by
  rw [BitVec.and_or_distrib_right, kind_bits_and]

/-- What `MergeFile` makes of a header: the mode with the bits of a kind, and
the data of a file. -/
theorem newInode_kind {ph : HeaderPtr} {component : List Byte} {parentid : ℤ} {node : Inode}
    (hrun : newInode ph component parentid = .ok node) :
    ∃ (kind : Kind) (mode : ℤ), ph.typeflag = .ok kind.typeflag ∧
      (strtol 8 (ph.from' .mode) : Run ExitReason ℤ) = .ok mode ∧
      node.mode = BitVec.ofInt 32 mode ||| kind.bits ∧
      (kind = .file → copyData ph node.size = .ok node.data) := by
  simp only [newInode, Run.bind_eq_ok] at hrun
  obtain ⟨name, -, link, -, size, -, uid, -, gid, -, mtime, -, mode, hmode, hswitch⟩ := hrun
  obtain ⟨flag, hflag, ⟨rfl, rfl⟩ | ⟨rfl, data, hdata, rfl⟩ | ⟨rfl, link, -, rfl⟩ | ⟨rfl, rfl⟩⟩ :=
    applyTypeflag_cases hswitch
  · exact ⟨.dir, mode, hflag, hmode, rfl, by simp⟩
  · exact ⟨.file, mode, hflag, hmode, rfl, fun _ => hdata⟩
  · exact ⟨.hardLink, mode, hflag, hmode, rfl, by simp⟩
  · exact ⟨.symLink, mode, hflag, hmode, rfl, by simp⟩

theorem typeflag_injective : Function.Injective Kind.typeflag := by
  intro left right heq
  cases left <;> cases right <;> first | rfl | simp [Kind.typeflag] at heq

/-- The inode has the type of its member exactly when the mode field has no
bits of another type. -/
theorem newInode_type_iff {ph : HeaderPtr} {component : List Byte} {parentid : ℤ}
    {node : Inode} {kind : Kind} (hflag : ph.typeflag = .ok kind.typeflag)
    (hrun : newInode ph component parentid = .ok node) :
    node.mode &&& S_IFMT = kind.bits ↔ BitsFit ph kind := by
  obtain ⟨other, mode, hother, hmode, hbits, -⟩ := newInode_kind hrun
  have hsame : kind = other := by
    rw [hflag, Except.ok.injEq] at hother
    exact typeflag_injective hother
  subst hsame
  rw [hbits, or_and_S_IFMT]
  constructor
  · intro hfit value hvalue
    rw [hmode, Except.ok.injEq] at hvalue
    exact hvalue ▸ hfit
  · exact fun hfit => hfit mode hmode

theorem known_of_bits {node : Inode} {kind : Kind} (hbits : node.mode &&& S_IFMT = kind.bits) :
    node.isDir = true ∨ node.isReg = true ∨ node.isLnk = true := by
  simp only [Inode.isDir, Inode.isReg, Inode.isLnk, hbits]
  cases kind <;> decide

/-- Whatever the mode field holds, only a file can become a regular file, and
then its data was copied. -/
theorem newInode_data {ph : HeaderPtr} {component : List Byte} {parentid : ℤ} {node : Inode}
    (hrun : newInode ph component parentid = .ok node) (hreg : node.isReg = true)
    (hsize : node.size ≠ 0) : node.data ≠ none := by
  obtain ⟨kind, mode, -, -, hbits, hdata⟩ := newInode_kind hrun
  have hfile : kind = .file := by
    have hkept : S_IFREG &&& kind.bits = kind.bits := by
      calc S_IFREG &&& kind.bits
          = (node.mode &&& S_IFMT) &&& kind.bits := by
            rw [Inode.isReg, decide_eq_true_eq] at hreg
            rw [hreg]
        _ = ((BitVec.ofInt 32 mode &&& S_IFMT) ||| kind.bits) &&& kind.bits := by
            rw [hbits, or_and_S_IFMT]
        _ = kind.bits := by
            ext i hi
            simp only [BitVec.getElem_and, BitVec.getElem_or]
            cases kind.bits[i] <;> simp
    revert hkept
    cases kind <;> decide
  have hcopy := hdata hfile
  rw [copyData, if_neg hsize] at hcopy
  split at hcopy
  · simp at hcopy
  · simp only [Run.bind_eq_ok, Run.pure_eq_ok, Except.ok.injEq] at hcopy
    obtain ⟨-, -, hcopy⟩ := hcopy
    rw [← hcopy]
    exact Option.some_ne_none _

/-! ## Runs -/

theorem reachable_data {inodes : Table} (hreach : Reachable inodes) :
    ∀ node ∈ inodes, node.isReg = true → node.size ≠ 0 → node.data ≠ none := by
  refine Reachable.induction (motive := fun inodes => ∀ node ∈ inodes,
    node.isReg = true → node.size ≠ 0 → node.data ≠ none) (by simp) ?_ hreach
  intro inodes ph merged hreach ih hrun
  obtain ⟨_, _, _, -, -, ⟨rfl, -⟩ | ⟨node, rfl, -, -, hnode, -⟩⟩ :=
    mergeFile_paths (reachable_shape hreach) hrun
  · exact ih
  · intro other hother
    rcases List.mem_append.mp hother with hold | hnew
    · exact ih other hold
    · rw [List.mem_singleton.mp hnew]
      exact newInode_data hnode

/-- In a run whose mode fields fit, every inode has one of the three types. -/
theorem reachedBy_known {inodes : Table} (hreached : Visits.ReachedBy NewBitsFit inodes) :
    ∀ node ∈ inodes, node.isDir = true ∨ node.isReg = true ∨ node.isLnk = true := by
  induction hreached with
  | start => simp
  | @step ph inodes merged hbefore hcondition hrun ih =>
      obtain ⟨front, component, parentid, hheader, hfront, hmerged⟩ := mergeFile_cases hrun
      cases hmerged with
      | existing hfound => exact ih
      | @added node hnew hroom hnode =>
          intro other hother
          rcases List.mem_append.mp hother with hold | hadded
          · exact ih other hold
          · rw [List.mem_singleton.mp hadded]
            obtain ⟨kind, mode, hflag, -⟩ := newInode_kind hnode
            have hnone : resolve inodes (-1) (front ++ [component]) = none :=
              resolve_eq_none_of_new hfront hnew
            exact known_of_bits ((newInode_type_iff hflag hnode).mpr
              (hcondition _ hheader hnone kind hflag))

/-! ## The XML walk -/

section XML

variable {inodes : Table}

theorem startTags_append (left right : List Xml.Token) :
    startTags (left ++ right) = startTags left ++ startTags right :=
  List.filterMap_append

/-- A walk prints one element for every inode whose turn it is, in order. -/
def Elements (inodes : Table) (fp next : Printer Xml.Token) : Prop :=
  ∃ more, next.visited = fp.visited ++ more ∧
    ∃ tags, startTags next.out = startTags fp.out ++ tags ∧
      tags.map some = more.map (tagOf inodes)

theorem Elements.refl (fp : Printer Xml.Token) : Elements inodes fp fp :=
  ⟨[], by simp, [], by simp, rfl⟩

theorem Elements.trans {first second third : Printer Xml.Token}
    (hfirst : Elements inodes first second) (hsecond : Elements inodes second third) :
    Elements inodes first third := by
  obtain ⟨more, hmore, tags, htags, hsame⟩ := hfirst
  obtain ⟨more', hmore', tags', htags', hsame'⟩ := hsecond
  refine ⟨more ++ more', by rw [hmore', hmore, List.append_assoc], tags ++ tags',
    by rw [htags', htags, List.append_assoc], ?_⟩
  rw [List.map_append, List.map_append, hsame, hsame']

/-- Printing without a start tag adds no element. -/
theorem Elements.print {first second : Printer Xml.Token}
    (helements : Elements inodes first second) {tokens : List Xml.Token}
    (htokens : startTags tokens = []) : Elements inodes first (second.print tokens) := by
  obtain ⟨more, hmore, tags, htags, hsame⟩ := helements
  refine ⟨more, hmore, tags, ?_, hsame⟩
  rw [Printer.print, startTags_append, htokens, List.append_nil, htags]

theorem elements_entry {i : ℕ} {fp : Printer Xml.Token} {tokens : List Xml.Token}
    {tag : List Byte} (htokens : startTags tokens = [tag]) (htag : tagOf inodes i = some tag) :
    Elements inodes fp ((fp.visit i).print tokens) :=
  ⟨[i], rfl, [tag], by rw [Printer.print, startTags_append, htokens]; rfl, by simp [htag]⟩

theorem startTags_ownerXML (node : Inode) : startTags (ownerXML node) = [] := by
  rw [ownerXML]
  split <;> split <;> rfl

theorem startTags_dirXML (sub : ℕ) (node : Inode) :
    startTags (printIdentXML sub ++ dirXML node ++ [.close]) = [dirText] := by
  simp only [dirXML, startTags_append, startTags_ownerXML]
  rfl

theorem startTags_fileXML (sub : ℕ) (node : Inode) :
    startTags (printIdentXML sub ++ fileXML node) = [fileText] := by
  simp only [fileXML, startTags_append, startTags_ownerXML]
  split <;> split <;> split <;> rfl

theorem startTags_linkXML (sub : ℕ) (node : Inode) :
    startTags (printIdentXML sub ++ linkXML node) = [linkText] := rfl

theorem elements_walkXMLEntry {i : ℕ} {node : Inode}
    {walk : ℤ → ℕ → Printer Xml.Token → Run ExitReason (Printer Xml.Token)}
    (hwalk : ∀ sub fp next, walk i sub fp = .ok next → Elements inodes fp next)
    (hnode : inodes[i]? = some node)
    (hknown : node.isDir = true ∨ node.isReg = true ∨ node.isLnk = true)
    {parentid : ℤ} {sub : ℕ} {fp next : Printer Xml.Token}
    (hrun : walkXMLEntry inodes walk parentid sub fp i = .ok next) :
    Elements inodes fp next := by
  rw [walkXMLEntry, Paths.entry_eq_ok.mpr hnode, Run.ok_bind] at hrun
  split at hrun
  · rw [Run.pure_eq_ok, Except.ok.injEq] at hrun
    exact hrun ▸ .refl fp
  · by_cases hdir : node.isDir = true
    · rw [if_pos hdir] at hrun
      simp only [Run.bind_eq_ok, Run.pure_eq_ok, Except.ok.injEq] at hrun
      obtain ⟨inner, hinner, rfl⟩ := hrun
      have hhead : Elements inodes fp ((fp.visit i).print
          (printIdentXML sub ++ dirXML node ++ [.close])) :=
        elements_entry (startTags_dirXML sub node) (by simp [tagOf, hnode, hdir])
      have hinside : Elements inodes fp inner := by
        refine Elements.trans ?_ (hwalk _ _ _ hinner)
        split
        · exact hhead
        · exact hhead.print rfl
      split
      · exact hinside.print rfl
      · exact (hinside.print rfl).print rfl
    · rw [if_neg hdir] at hrun
      by_cases hreg : node.isReg = true
      · rw [if_pos hreg, Run.pure_eq_ok, Except.ok.injEq] at hrun
        rw [← hrun]
        exact elements_entry (startTags_fileXML sub node) (by simp [tagOf, hnode, hdir, hreg])
      · have hlnk := (hknown.resolve_left hdir).resolve_left hreg
        rw [if_neg hreg, if_pos hlnk, Run.pure_eq_ok, Except.ok.injEq] at hrun
        rw [← hrun]
        exact elements_entry (startTags_linkXML sub node)
          (by simp [tagOf, hnode, hdir, hreg, hlnk])

theorem elements_walkXML
    (hknown : ∀ node ∈ inodes, node.isDir = true ∨ node.isReg = true ∨ node.isLnk = true)
    {fuel sub : ℕ} {parentid : ℤ} {fp next : Printer Xml.Token}
    (hrun : walkXML inodes fuel parentid sub fp = .ok next) : Elements inodes fp next := by
  induction fuel generalizing parentid sub fp next with
  | zero => simp [walkXML] at hrun
  | succ fuel ih =>
      refine Run.foldlM_invariant (Elements inodes fp) hrun (.refl fp) ?_
      intro reached i after hi hreached hstep
      have hlt := List.mem_range.mp hi
      exact hreached.trans (elements_walkXMLEntry (fun sub fp next => ih)
        (List.getElem?_eq_getElem hlt) (hknown _ (List.getElem_mem hlt)) hstep)

theorem createXML_elements
    (hknown : ∀ node ∈ inodes, node.isDir = true ∨ node.isReg = true ∨ node.isLnk = true)
    {fp : Printer Xml.Token} (hrun : createXML inodes = .ok fp) :
    (startTags fp.out).map some = some rootText :: fp.visited.map (tagOf inodes) := by
  simp only [createXML, Run.bind_eq_ok, Run.pure_eq_ok, Except.ok.injEq] at hrun
  obtain ⟨inner, hinner, rfl⟩ := hrun
  obtain ⟨more, hmore, tags, htags, hsame⟩ := elements_walkXML hknown hinner
  have hvisited : inner.visited = more := hmore
  have hout : startTags (inner.print [.finish rootText, newlineXML]).out = rootText :: tags := by
    rw [Printer.print, startTags_append, htags]
    exact List.append_nil _
  rw [hout, List.map_cons, hsame, ← hvisited]
  rfl

end XML

theorem known_of_sameTree {inodes walked : Table} (hsame : SameTree inodes walked)
    (hknown : ∀ node ∈ inodes, node.isDir = true ∨ node.isReg = true ∨ node.isLnk = true) :
    ∀ node ∈ walked, node.isDir = true ∨ node.isReg = true ∨ node.isLnk = true := by
  intro node hnode
  obtain ⟨index, hindex⟩ := List.mem_iff_getElem?.mp hnode
  obtain ⟨original, horiginal, hfixed⟩ := hsame.symm.getElem? hindex
  have hmode : original.mode = node.mode := (congrArg Inode.mode hfixed :)
  have horiginalKnown := hknown original (List.mem_of_getElem? horiginal)
  simpa only [Inode.isDir, Inode.isReg, Inode.isLnk, hmode] using horiginalKnown

/-- An inode has the type of its member exactly when the mode field has no bits
of another type; and in every run in which that holds of each new member, the
walks know every inode. -/
theorem memberTypes (ph : HeaderPtr) (inodes : Table) :
    (∀ component parentid node, newInode ph component parentid = .ok node →
      ∀ kind : Kind, ph.typeflag = .ok kind.typeflag →
        (node.mode &&& S_IFMT = kind.bits ↔ BitsFit ph kind)) ∧
    (Visits.ReachedBy NewBitsFit inodes → TypesKept inodes) := by
  constructor
  · intro component parentid node hrun kind hflag
    exact newInode_type_iff hflag hrun
  · intro hreached
    have hreach := hreached.reachable
    have hknown := reachedBy_known hreached
    refine ⟨?_, ?_, reachable_data hreach⟩
    · intro walked hsame
      exact Visits.createJSON_returns (hsame.shape (reachable_shape hreach))
        (known_of_sameTree hsame hknown)
    · intro walked fp hsame
      exact createXML_elements (known_of_sameTree hsame hknown)

/-! ## A mode with the bits of another type -/

/-- The bits of a member that is spelled by its header. -/
theorem newBitsFit_of_encodes {ph : HeaderPtr} {member : Member} (henc : Encodes ph member)
    (hbits : (BitVec.ofNat 32 member.content.mode &&& S_IFMT) ||| member.content.kind.bits =
      member.content.kind.bits) (inodes : Table) : NewBitsFit ph inodes := by
  intro path _ _ kind hkind mode hmode
  rw [henc.typeflag_eq, Except.ok.injEq] at hkind
  obtain rfl := typeflag_injective hkind
  rw [Encodes.strtol_field henc.mode member.content.modeFits, Except.ok.injEq] at hmode
  rw [← hmode, BitVec.ofInt_natCast]
  exact hbits

set_option maxRecDepth 4000 in
theorem newInode_smallFile :
    newInode (TarHeader.memberHeader TarHeader.smallFile) (ascii ['b']) 0 =
      .ok (TarHeader.smallTable.get ⟨1, by decide⟩) := by
  rfl

/-- A directory and a file with data in it. -/
theorem memberTypes_smallTable :
    ((TarHeader.smallTable.get ⟨1, by decide⟩).mode &&& S_IFMT = Kind.file.bits ↔
        BitsFit (TarHeader.memberHeader TarHeader.smallFile) .file) ∧
      TypesKept TarHeader.smallTable := by
  have hdirectory : NewBitsFit (TarHeader.memberHeader (TarHeader.nestedDirectory 0)) [] :=
    newBitsFit_of_encodes (TarHeader.encodes_memberHeader (TarHeader.writable_nestedDirectory 0))
      (by decide) _
  have hfile : NewBitsFit (TarHeader.memberHeader TarHeader.smallFile)
      (TarHeader.smallTable.take 1) :=
    newBitsFit_of_encodes (TarHeader.encodes_memberHeader TarHeader.writable_smallFile)
      (by decide) _
  exact ⟨(memberTypes _ []).1 _ _ _ newInode_smallFile .file (by decide +kernel),
    (memberTypes (TarHeader.memberHeader TarHeader.smallFile) _).2
      (.step (.step .start hdirectory Visits.mergeFile_nestedDirectory) hfile
        Visits.mergeFile_smallFile)⟩

/-- The header of a directory with the type bits of a link in its mode. -/
def linkBitsHeader : HeaderPtr :=
  ⟨(TarHeader.tarHeader (TarHeader.nestedDirectory 0)).take 100 ++
    (TarHeader.numericText 8 0o120755 ++
      (TarHeader.tarHeader (TarHeader.nestedDirectory 0)).drop 108), 0⟩

/-- The directory becomes an inode of no known type, at which the JSON walk
gives up and which the XML walk leaves out. -/
theorem linkBitsHeader_unknown :
    linkBitsHeader.typeflag = .ok Kind.dir.typeflag ∧
    ∃ node, mergeAll [linkBitsHeader] [] = .ok [node] ∧
      node.mode &&& S_IFMT ≠ Kind.dir.bits ∧
      createJSON [node] = Run.exit .unknownFileTyp ∧
      ∃ fp, createXML [node] = .ok fp ∧ fp.visited = [0] ∧ startTags fp.out = [rootText] := by
  have hrun : mergeAll [linkBitsHeader] [] =
      .ok [{ TarHeader.smallTable.get ⟨0, by decide⟩ with mode := 0o160755 }] := by
    rfl
  exact ⟨by decide +kernel, _, hrun, by decide, rfl, _, rfl, rfl, rfl⟩

end Tcb.MemberTypes
