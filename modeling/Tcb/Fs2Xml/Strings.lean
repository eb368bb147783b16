import Tcb.Core.Literals
import Tcb.Fs2Xml.Visits

/-!
# The strings in the manifests

Names, link targets and `src` are printed between quotes as they are: nothing
is escaped.  A reader of the file gets back exactly what was stored when the
string has no character that means something else between the quotes, and
never otherwise.
-/

namespace Tcb.Strings

open Tcb.CString
open Tcb.Literals
open Tcb.Inodes
open Tcb.MergeFile
open Tcb.Paths
open Tcb.TableShape
open Tcb.TarHeader
open Tcb.Manifest

/-- The strings of an inode that its entry shows, each with its key. -/
def shown (node : Inode) : List (List Byte × List Byte) :=
  if node.isDir then [(nameText, nameOf node)]
  else if node.isReg then
    (nameText, nameOf node) ::
      if node.src.bytes ≠ [] then [(srcText, node.src.bytes)] else []
  else if node.isLnk then [(nameText, nameOf node), (pathText, node.link.bytes)]
  else []

/-! ## What the walks print -/

/-- What is printed for an index of the table is still there at the end. -/
def Prints {τ : Type} (inodes : Table) (token : List Byte × List Byte → τ) (ids : List ℕ)
    (fp next : Printer τ) : Prop :=
  fp.out ⊆ next.out ∧ ∀ i ∈ ids, ∀ node, inodes[i]? = some node →
    ∀ pair ∈ shown node, token pair ∈ next.out

section Prints

variable {τ : Type} {inodes : Table} {token : List Byte × List Byte → τ} {ids more : List ℕ}
  {first second third : Printer τ}

theorem Prints.refl (fp : Printer τ) : Prints inodes token [] fp fp :=
  ⟨fun _ hmem => hmem, by simp⟩

theorem Prints.trans (hfirst : Prints inodes token ids first second)
    (hsecond : Prints inodes token more second third) :
    Prints inodes token (ids ++ more) first third := by
  refine ⟨List.Subset.trans hfirst.1 hsecond.1, ?_⟩
  intro i hi node hnode pair hpair
  rcases List.mem_append.mp hi with hi | hi
  · exact hsecond.1 (hfirst.2 i hi node hnode pair hpair)
  · exact hsecond.2 i hi node hnode pair hpair

theorem Prints.print (hprints : Prints inodes token ids first second) (tokens : List τ) :
    Prints inodes token ids first (second.print tokens) := by
  have hmore : Prints inodes token [] second (second.print tokens) :=
    ⟨List.subset_append_left _ _, by simp⟩
  rw [← List.append_nil ids]
  exact hprints.trans hmore

/-- One inode whose strings are among the tokens that are printed. -/
theorem prints_entry {i : ℕ} {node : Inode} {tokens : List τ}
    (hnode : inodes[i]? = some node) (hshown : ∀ pair ∈ shown node, token pair ∈ tokens) :
    Prints inodes token [i] first ((first.visit i).print tokens) := by
  refine ⟨List.subset_append_left _ _, ?_⟩
  intro j hj other hother pair hpair
  rw [List.mem_singleton.mp hj, hnode, Option.some.injEq] at hother
  exact List.mem_append_right _ (hshown pair (hother ▸ hpair))

end Prints

section XML

/-- An attribute of an element. -/
def quotedXML (pair : List Byte × List Byte) : Xml.Token := .attr pair.1 pair.2

variable {inodes : Table}

theorem shown_dirXML {node : Inode} (hdir : node.isDir = true) :
    ∀ pair ∈ shown node, quotedXML pair ∈ dirXML node := by
  rw [shown, if_pos hdir]
  simp [dirXML, quotedXML]

theorem shown_fileXML {node : Inode} (hdir : ¬ node.isDir = true) (hreg : node.isReg = true) :
    ∀ pair ∈ shown node, quotedXML pair ∈ fileXML node := by
  rw [shown, if_neg hdir, if_pos hreg]
  by_cases hsrc : node.src.bytes = [] <;> simp [fileXML, quotedXML, hsrc]

theorem shown_linkXML {node : Inode} (hdir : ¬ node.isDir = true) (hreg : ¬ node.isReg = true)
    (hlnk : node.isLnk = true) : ∀ pair ∈ shown node, quotedXML pair ∈ linkXML node := by
  rw [shown, if_neg hdir, if_neg hreg, if_pos hlnk]
  simp [linkXML, quotedXML]

theorem shown_other {node : Inode} (hdir : ¬ node.isDir = true) (hreg : ¬ node.isReg = true)
    (hlnk : ¬ node.isLnk = true) : shown node = [] := by
  rw [shown, if_neg hdir, if_neg hreg, if_neg hlnk]

theorem entryXML_strings {i : ℕ} {node : Inode} {below : List ℕ}
    {walk : ℤ → ℕ → Printer Xml.Token → Run ExitReason (Printer Xml.Token)}
    (hwalk : ∀ sub fp next, walk i sub fp = .ok next → Prints inodes quotedXML below fp next)
    (hnode : inodes[i]? = some node) {sub : ℕ} {fp next : Printer Xml.Token}
    (hrun : walkXMLEntry inodes walk node.parentid sub fp i = .ok next) :
    Prints inodes quotedXML (i :: if node.isDir then below else []) fp next := by
  rw [walkXMLEntry, entry_eq_ok.mpr hnode, Run.ok_bind, if_neg (by simp)] at hrun
  by_cases hdir : node.isDir = true
  · rw [if_pos hdir] at hrun ⊢
    simp only [Run.bind_eq_ok, Run.pure_eq_ok, Except.ok.injEq] at hrun
    obtain ⟨inner, hinner, rfl⟩ := hrun
    have hhead : Prints inodes quotedXML [i] fp ((fp.visit i).print
        (printIdentXML sub ++ dirXML node ++ [.close])) :=
      prints_entry hnode fun pair hpair => by simp [shown_dirXML hdir pair hpair]
    have hinside : Prints inodes quotedXML ([i] ++ below) fp inner := by
      refine Prints.trans ?_ (hwalk _ _ _ hinner)
      split
      · exact hhead
      · exact hhead.print _
    split
    · exact hinside.print _
    · exact (hinside.print _).print _
  · rw [if_neg hdir] at hrun ⊢
    by_cases hreg : node.isReg = true
    · rw [if_pos hreg, Run.pure_eq_ok, Except.ok.injEq] at hrun
      rw [← hrun]
      exact prints_entry hnode fun pair hpair =>
        List.mem_append_right _ (shown_fileXML hdir hreg pair hpair)
    · rw [if_neg hreg] at hrun
      by_cases hlnk : node.isLnk = true
      · rw [if_pos hlnk, Run.pure_eq_ok, Except.ok.injEq] at hrun
        rw [← hrun]
        exact prints_entry hnode fun pair hpair =>
          List.mem_append_right _ (shown_linkXML hdir hreg hlnk pair hpair)
      · rw [if_neg hlnk, Run.pure_eq_ok, Except.ok.injEq] at hrun
        rw [← hrun]
        refine ⟨fun _ hmem => hmem, ?_⟩
        intro j hj other hother pair hpair
        rw [List.mem_singleton.mp hj, hnode, Option.some.injEq] at hother
        rw [← hother, shown_other hdir hreg hlnk] at hpair
        exact absurd hpair List.not_mem_nil

theorem walkXML_strings {fuel sub : ℕ} {parentid : ℤ} {fp next : Printer Xml.Token}
    (hrun : walkXML inodes fuel parentid sub fp = .ok next) :
    Prints inodes quotedXML (visits inodes fuel parentid) fp next := by
  induction fuel generalizing parentid sub fp next with
  | zero => simp [walkXML] at hrun
  | succ fuel ih =>
      rw [walkXML, Run.foldlM_filter
        (fun i => (inodes[i]?).any fun node => node.parentid = parentid)] at hrun
      · rw [visits, Preorder.preorder]
        refine Run.foldlM_done (fun before state => Prints inodes quotedXML
          (before.flatMap fun i => i :: if Preorder.opensAt Inode.isDir inodes i then
            visits inodes fuel i else []) fp state) hrun (.refl fp) ?_
        intro before i after state next hsplit hstate hstep
        have hi : i ∈ Preorder.children Inode.parentid inodes parentid := by
          rw [hsplit]
          exact List.mem_append_right _ List.mem_cons_self
        obtain ⟨node, hnode, rfl⟩ := Preorder.mem_children_iff.mp hi
        rw [List.flatMap_append, List.flatMap_singleton, Preorder.opensAt, hnode,
          Option.any_some]
        exact hstate.trans (entryXML_strings (fun sub fp next => ih) hnode hstep)
      · intro state i hmem hnot
        obtain ⟨node, hnode, hne⟩ := exists_of_not_child hmem hnot
        rw [walkXMLEntry, entry_eq_ok.mpr hnode, Run.ok_bind, if_pos hne]
        rfl

end XML

section JSON

/-- A string of an object. -/
def quotedJSON (pair : List Byte × List Byte) : Json.Token := .string pair.2

variable {inodes : Table}

theorem shown_headJSON {node : Inode} : .string (nameOf node) ∈ headJSON node := by
  simp [headJSON]

theorem shown_fileJSON {node : Inode} (hdir : ¬ node.isDir = true) (hreg : node.isReg = true) :
    ∀ pair ∈ shown node, quotedJSON pair ∈ fileJSON node := by
  rw [shown, if_neg hdir, if_pos hreg]
  by_cases hsrc : node.src.bytes = [] <;> simp [fileJSON, quotedJSON, shown_headJSON, hsrc]

theorem shown_linkJSON {node : Inode} (hdir : ¬ node.isDir = true) (hreg : ¬ node.isReg = true)
    (hlnk : node.isLnk = true) : ∀ pair ∈ shown node, quotedJSON pair ∈ linkJSON node := by
  rw [shown, if_neg hdir, if_neg hreg, if_pos hlnk]
  simp [linkJSON, quotedJSON, shown_headJSON]

theorem entryJSON_strings {fuel i : ℕ} {node : Inode}
    {walk : ℤ → ℕ → Printer Json.Token → Run ExitReason (Printer Json.Token)}
    (hwalk : ∀ sub fp next, walk i sub fp = .ok next →
      Prints inodes quotedJSON (visits inodes fuel i) fp next)
    (hnode : inodes[i]? = some node) {sub : ℕ} {fp next : Printer Json.Token}
    (hrun : entryJSON inodes walk sub i node (fp.visit i) = .ok next) :
    Prints inodes quotedJSON (i :: if node.isDir then visits inodes fuel i else [])
      fp next := by
  rw [entryJSON] at hrun
  by_cases hdir : node.isDir = true
  · rw [if_pos hdir] at hrun ⊢
    have hhead : Prints inodes quotedJSON [i] fp ((fp.visit i).print
        (printIdentJSON sub ++ headJSON node ++ ownerJSON node)) := by
      apply prints_entry hnode
      intro pair hpair
      rw [shown, if_pos hdir, List.mem_singleton] at hpair
      simp [hpair, quotedJSON, shown_headJSON]
    by_cases hempty : isEmpty inodes i = true
    · simp only [hempty, if_true, Run.pure_eq_ok, Except.ok.injEq] at hrun
      rw [← hrun, preorder_of_isEmpty hempty]
      exact hhead.print _
    · simp only [hempty, Bool.false_eq_true, if_false, Run.bind_eq_ok, Run.pure_eq_ok,
        Except.ok.injEq] at hrun
      obtain ⟨inner, hinner, rfl⟩ := hrun
      exact ((hhead.print _).trans (hwalk _ _ _ hinner)).print _
  · rw [if_neg hdir] at hrun ⊢
    by_cases hreg : node.isReg = true
    · rw [if_pos hreg, Run.pure_eq_ok, Except.ok.injEq] at hrun
      rw [← hrun]
      exact prints_entry hnode fun pair hpair =>
        List.mem_append_right _ (shown_fileJSON hdir hreg pair hpair)
    · rw [if_neg hreg] at hrun
      by_cases hlnk : node.isLnk = true
      · rw [if_pos hlnk, Run.pure_eq_ok, Except.ok.injEq] at hrun
        rw [← hrun]
        exact prints_entry hnode fun pair hpair =>
          List.mem_append_right _ (shown_linkJSON hdir hreg hlnk pair hpair)
      · rw [if_neg hlnk] at hrun
        simp at hrun

theorem walkJSON_strings {fuel sub : ℕ} {parentid : ℤ} {fp next : Printer Json.Token}
    (hrun : walkJSON inodes fuel parentid sub fp = .ok next) :
    Prints inodes quotedJSON (visits inodes fuel parentid) fp next := by
  induction fuel generalizing parentid sub fp next with
  | zero => simp [walkJSON] at hrun
  | succ fuel ih =>
      rw [walkJSON, Run.map_eq_ok] at hrun
      obtain ⟨final, hloop, rfl⟩ := hrun
      rw [Run.foldlM_filter
        (fun i => (inodes[i]?).any fun node => node.parentid = parentid)] at hloop
      · rw [← children_eq_filter] at hloop
        rw [visits, Preorder.preorder]
        refine Run.foldlM_done (fun before state => Prints inodes quotedJSON
          (before.flatMap fun i => i :: if Preorder.opensAt Inode.isDir inodes i then
            visits inodes fuel i else []) fp state.1) hloop (.refl fp) ?_
        rintro before i after ⟨reached, n⟩ next hsplit hstate hstep
        have hi : i ∈ Preorder.children Inode.parentid inodes parentid := by
          rw [hsplit]
          exact List.mem_append_right _ List.mem_cons_self
        obtain ⟨node, hnode, rfl⟩ := Preorder.mem_children_iff.mp hi
        rw [walkJSONEntry, entry_eq_ok.mpr hnode, Run.ok_bind, if_neg (by simp)] at hstep
        simp only [Run.bind_eq_ok, Run.pure_eq_ok, Except.ok.injEq] at hstep
        obtain ⟨entered, hentry, rfl⟩ := hstep
        rw [List.flatMap_append, List.flatMap_singleton, Preorder.opensAt, hnode,
          Option.any_some]
        exact hstate.trans
          ((entryJSON_strings (fun sub fp next => ih) hnode hentry).print _)
      · rintro ⟨reached, n⟩ i hmem hnot
        obtain ⟨node, hnode, hne⟩ := exists_of_not_child hmem hnot
        rw [walkJSONEntry, entry_eq_ok.mpr hnode, Run.ok_bind, if_pos hne]
        rfl

end JSON

/-! ## Reading the manifests -/

/-- The bytes of a file. -/
def textXML (xml : Printer Xml.Token) : List Byte := xml.out.flatMap Xml.Token.bytes
def textJSON (json : Printer Json.Token) : List Byte := json.out.flatMap Json.Token.bytes

/-- A quoted string stands in a file behind its quote: what a reader finds
there is the string itself exactly when it is plain. -/
structure ReadBack (text : List Byte) (quote : Byte)
    (read : List Byte → Option (List Byte × List Byte)) (plain : ℕ → Prop)
    (front value behind : List Byte) : Prop where
  stands : text = front ++ quote :: (value ++ quote :: behind)
  read_iff : read (value ++ quote :: behind) = some (value, behind) ↔ AllChars plain value

theorem readBack_xml {xml : Printer Xml.Token} {before after : List Xml.Token}
    {key value : List Byte} (hout : xml.out = before ++ .attr key value :: after) :
    ReadBack (textXML xml) 39 readAttribute plainXml
      (before.flatMap Xml.Token.bytes ++ 32 :: key ++ [61]) value
      (after.flatMap Xml.Token.bytes) := by
  refine ⟨?_, readAttribute_iff value _⟩
  simp only [textXML, hout, List.flatMap_append, List.flatMap_cons, Xml.Token.bytes]
  simp [ascii]

theorem readBack_json {json : Printer Json.Token} {before after : List Json.Token}
    {value : List Byte} (hout : json.out = before ++ .string value :: after) :
    ReadBack (textJSON json) 34 readString plainJson (before.flatMap Json.Token.bytes) value
      (after.flatMap Json.Token.bytes) := by
  refine ⟨?_, readString_iff value _⟩
  simp [textJSON, hout, Json.Token.bytes]

/-- Every string of every inode that is reached stands in the manifest, and
every quoted string of the manifest is read back exactly when it is plain. -/
structure ReadsBackXML (inodes : Table) (xml : Printer Xml.Token) : Prop where
  printed : ∀ i node, Preorder.Visited Inode.parentid Inode.isDir inodes i →
    inodes[i]? = some node → ∀ pair ∈ shown node, .attr pair.1 pair.2 ∈ xml.out
  readBack : ∀ before key value after, xml.out = before ++ .attr key value :: after →
    ReadBack (textXML xml) 39 readAttribute plainXml
      (before.flatMap Xml.Token.bytes ++ 32 :: key ++ [61]) value
      (after.flatMap Xml.Token.bytes)

structure ReadsBackJSON (inodes : Table) (json : Printer Json.Token) : Prop where
  printed : ∀ i node, Preorder.Visited Inode.parentid Inode.isDir inodes i →
    inodes[i]? = some node → ∀ pair ∈ shown node, .string pair.2 ∈ json.out
  readBack : ∀ before value after, json.out = before ++ .string value :: after →
    ReadBack (textJSON json) 34 readString plainJson (before.flatMap Json.Token.bytes) value
      (after.flatMap Json.Token.bytes)

section Manifests

variable {inodes : Table} {xml : Printer Xml.Token} {json : Printer Json.Token}

theorem mem_visits (hshape : Shape inodes) {i : ℕ}
    (hvisited : Preorder.Visited Inode.parentid Inode.isDir inodes i) :
    i ∈ visits inodes (inodes.length + 1) (-1) :=
  ((parentsFirst hshape).mem_preorder_root_iff (Nat.le_succ _)).mpr hvisited

theorem createXML_readsBack (hshape : Shape inodes) (hxml : createXML inodes = .ok xml) :
    ReadsBackXML inodes xml := by
  rw [createXML, Run.bind_eq_ok] at hxml
  obtain ⟨inner, hinner, hxml⟩ := hxml
  rw [Run.pure_eq_ok, Except.ok.injEq] at hxml
  refine ⟨?_, fun before key value after => readBack_xml⟩
  intro i node hvisited hnode pair hpair
  rw [← hxml]
  exact List.mem_append_left _ ((walkXML_strings hinner).2 i (mem_visits hshape hvisited) node
    hnode pair hpair)

theorem createJSON_readsBack (hshape : Shape inodes) (hjson : createJSON inodes = .ok json) :
    ReadsBackJSON inodes json := by
  rw [createJSON, Run.bind_eq_ok] at hjson
  obtain ⟨inner, hinner, hjson⟩ := hjson
  rw [Run.pure_eq_ok, Except.ok.injEq] at hjson
  refine ⟨?_, fun before value after => readBack_json⟩
  intro i node hvisited hnode pair hpair
  rw [← hjson]
  exact List.mem_append_left _ ((walkJSON_strings hinner).2 i (mem_visits hshape hvisited) node
    hnode pair hpair)

end Manifests

/-- The manifests of a table that was merged, and may have been walked over:
`CreateXML` always returns, and `CreateJSON` unless it meets an unknown type. -/
theorem createManifests_strings {merged inodes : Table} (hreach : Reachable merged)
    (hsame : SameTree merged inodes) :
    (∃ xml, createXML inodes = .ok xml ∧ ReadsBackXML inodes xml) ∧
      ∀ json, createJSON inodes = .ok json → ReadsBackJSON inodes json := by
  have hshape : Shape inodes := hsame.shape (reachable_shape hreach)
  obtain ⟨xml, hxml⟩ := Visits.createXML_returns hshape
  exact ⟨⟨xml, hxml, createXML_readsBack hshape hxml⟩,
    fun json hjson => createJSON_readsBack hshape hjson⟩

theorem createManifests_strings_smallTable :
    (∃ xml, createXML smallTable = .ok xml ∧ ReadsBackXML smallTable xml) ∧
      ∃ json, createJSON smallTable = .ok json ∧ ReadsBackJSON smallTable json := by
  have hreach : Reachable smallTable := ⟨_, mergeAll_smallTable⟩
  obtain ⟨hxml, hjson⟩ := createManifests_strings hreach (.refl _)
  obtain ⟨json, hreturns⟩ :=
    Visits.createJSON_returns (reachable_shape hreach) (by decide +kernel)
  exact ⟨hxml, json, hreturns, hjson json hreturns⟩

/-! ## A name with quotes in it -/

/-- The file `'"`. -/
def quotesFile : Members.Member where
  path := [[39, 34]]
  slash := false
  content := fileContent
  nonempty := by decide
  depth := by decide
  components := by decide
  notDotted := by decide
  fits := by decide

def quotesTable : Table :=
  [{  name := ⟨[39, 34], by decide, by decide⟩
      src := ⟨[], CArray.nil_noNul, CArray.nil_fits⟩
      link := ⟨[], CArray.nil_noNul, CArray.nil_fits⟩
      mode := 0o100644
      size := 2
      uid := 1000
      gid := 1000
      parentid := -1
      data := some (ascii ['h', 'i'])
      compressed := false
      load := false
      mtime := 5 }]

set_option maxRecDepth 4000 in
theorem mergeAll_quotesTable :
    mergeAll [memberHeader quotesFile] [] = .ok quotesTable := by
  rfl

/-- Both manifests show the name, and a reader of either gets something else. -/
theorem quotesTable_not_readBack :
    Reachable quotesTable ∧
      (∃ xml before after, createXML quotesTable = .ok xml ∧
        xml.out = before ++ .attr nameText [39, 34] :: after ∧
        readAttribute ([39, 34] ++ 39 :: after.flatMap Xml.Token.bytes) ≠
          some ([39, 34], after.flatMap Xml.Token.bytes)) ∧
      ∃ json before after, createJSON quotesTable = .ok json ∧
        json.out = before ++ .string [39, 34] :: after ∧
        readString ([39, 34] ++ 34 :: after.flatMap Json.Token.bytes) ≠
          some ([39, 34], after.flatMap Json.Token.bytes) := by
  refine ⟨⟨_, mergeAll_quotesTable⟩, ?_, ?_⟩
  · refine ⟨_, [.start rootText, .attr srcText fsSlash, .close, newlineXML] ++
      printIdentXML 1 ++ [.start fileText], _, rfl, rfl, ?_⟩
    decide +kernel
  · refine ⟨_, [.lbrace, .string srcText, .colon, .string fsSlash, .comma,
      blankJSON, .string fsText, .colon, .lbracket, newlineJSON] ++
      printIdentJSON 1 ++ [.lbrace, blankJSON, .string nameText, .colon], _, rfl, rfl, ?_⟩
    decide +kernel

end Tcb.Strings
