import Tcb.Fs2Xml.Forest
import Tcb.Fs2Xml.Visits

/-!
# Both manifests describe the table

Each of the two printers is followed through its recursion: what `WalkXML` adds
to the file spells elements that read back as the forest below the inode, and
what `WalkJSON` adds is a list of values, with a comma between any two of them,
that reads back as the same forest.  For the commas the countdown of the
siblings is the number of entries of the loop that are still to come.
-/

namespace Tcb.Agreement

open Tcb.CString
open Tcb.Inodes
open Tcb.MergeFile
open Tcb.Paths
open Tcb.TableShape
open Tcb.Manifest
open Tcb.Forest
open Tcb.Preorder

/-- The trees that an index of a loop over the table stands for. -/
def treesAt (inodes : Table) (inside : ℕ → List Tree) (i : ℕ) : List Tree :=
  (inodes[i]?).elim [] fun node => treesOf node (inside i)

theorem forest_eq_flatMap (inodes : Table) (fuel : ℕ) (under : ℤ) :
    forest inodes (fuel + 1) under =
      (children Inode.parentid inodes under).flatMap
        (treesAt inodes fun i => forest inodes fuel i) := rfl

theorem forest_of_isEmpty {inodes : Table} {under : ℤ} (hempty : isEmpty inodes under = true)
    (fuel : ℕ) : forest inodes fuel under = [] := by
  cases fuel with
  | zero => rfl
  | succ fuel => rw [forest, children_eq_nil_of_isEmpty hempty, List.flatMap_nil]

/-! ## `WalkXML` -/

section XML

open Tcb.Xml

/-- What was added to the file spells elements that read back as the trees. -/
def PrintsXML (fp next : Printer Token) (trees : List Tree) : Prop :=
  ∃ tokens elements, next.out = fp.out ++ tokens ∧ Spells (significant tokens) elements ∧
    readElements elements = some trees

theorem PrintsXML.refl (fp : Printer Token) : PrintsXML fp fp [] :=
  ⟨[], [], (List.append_nil _).symm, .nil, rfl⟩

theorem PrintsXML.trans {first second third : Printer Token} {trees more : List Tree}
    (hfirst : PrintsXML first second trees) (hsecond : PrintsXML second third more) :
    PrintsXML first third (trees ++ more) := by
  obtain ⟨tokens, elements, hout, hspells, hread⟩ := hfirst
  obtain ⟨tokens', elements', hout', hspells', hread'⟩ := hsecond
  refine ⟨tokens ++ tokens', elements ++ elements', ?_, ?_, readElements_append hread hread'⟩
  · rw [hout', hout, List.append_assoc]
  · rw [significant_append]
    exact hspells.append hspells'

theorem attributeTokens_cons (attr : List Byte × List Byte)
    (attributes : List (List Byte × List Byte)) :
    attributeTokens (attr :: attributes) = .attr attr.1 attr.2 :: attributeTokens attributes :=
  rfl

theorem attributeTokens_pairs_cons (slot : Slot) (slots : List Slot) :
    attributeTokens (pairs (slot :: slots)) =
      attributeTokens slot.pairs ++ attributeTokens (pairs slots) := by
  rw [pairs, List.flatMap_cons, attributeTokens, List.map_append]
  rfl

theorem significant_printIdentXML (sub : ℕ) : significant (printIdentXML sub) = [] := rfl

theorem significant_optionalXML (present : Prop) [Decidable present] (key text : List Byte)
    (quoted : Bool) :
    significant (if present then [.attr key text] else []) =
      attributeTokens (Slot.pairs ⟨key, quoted, optionalText present text⟩) := by
  by_cases hpresent : present <;> simp [optionalText, hpresent] <;> rfl

theorem significant_ownerXML (node : Inode) :
    significant (ownerXML node) = attributeTokens (pairs (ownerSlots node)) := by
  rw [ownerXML, significant_append, significant_optionalXML _ _ _ false,
    significant_optionalXML _ _ _ false, ownerSlots, attributeTokens_pairs_cons,
    attributeTokens_pairs_cons]
  exact congrArg _ (List.append_nil _).symm

theorem attributeTokens_pairs_append (left right : List Slot) :
    attributeTokens (pairs (left ++ right)) =
      attributeTokens (pairs left) ++ attributeTokens (pairs right) := by
  rw [pairs, List.flatMap_append, attributeTokens, List.map_append]
  rfl

theorem significant_dirXML (node : Inode) :
    significant (dirXML node) =
      .start dirText :: attributeTokens (attributesOf compressedText .dir node) := by
  rw [dirXML, significant_append, significant_ownerXML]
  rfl

theorem significant_fileXML (node : Inode) :
    significant (fileXML node) =
      .start fileText ::
        (attributeTokens (attributesOf compressedText .file node) ++ [.selfClose]) := by
  simp only [fileXML, significant_append, significant_ownerXML,
    significant_optionalXML _ _ _ false, attributesOf, slots, attributeTokens_cons,
    attributeTokens_pairs_append, attributeTokens_pairs_cons, Bool.decide_eq_true]
  simp only [List.append_assoc, List.cons_append]
  rfl

theorem significant_linkXML (node : Inode) :
    significant (linkXML node) =
      .start linkText ::
        (attributeTokens (attributesOf compressedText .link node) ++ [.selfClose]) := rfl

section Walk

variable {inodes : Table} {inside : List Tree} {i : ℕ} {node : Inode}
  {walk : ℤ → ℕ → Printer Token → Run ExitReason (Printer Token)}

/-- What is printed for one inode. -/
theorem entryXML_prints
    (hwalk : ∀ sub fp next, walk i sub fp = .ok next → PrintsXML fp next inside)
    (hnode : inodes[i]? = some node) {sub : ℕ} {fp next : Printer Token}
    (hrun : walkXMLEntry inodes walk node.parentid sub fp i = .ok next) :
    PrintsXML fp next (treesOf node inside) := by
  rw [walkXMLEntry, entry_eq_ok.mpr hnode, Run.ok_bind, if_neg (by simp)] at hrun
  by_cases hdir : node.isDir = true
  · rw [if_pos hdir] at hrun
    simp only [Run.bind_eq_ok, Run.pure_eq_ok, Except.ok.injEq] at hrun
    obtain ⟨inner, hinner, rfl⟩ := hrun
    obtain ⟨tokens, elements, hout, hspells, hread⟩ := hwalk _ _ _ hinner
    refine ⟨printIdentXML sub ++ dirXML node ++ [.close] ++
      (if isEmpty inodes i then [] else [newlineXML]) ++ tokens ++
      (if isEmpty inodes i then [] else printIdentXML sub) ++ [.finish dirText, newlineXML],
      [.mk dirText (attributesOf compressedText .dir node) elements], ?_, ?_, ?_⟩
    · by_cases hempty : isEmpty inodes i = true <;>
        simp [hempty, Printer.print, Printer.visit, hout]
    · have hsignificant : ∀ spaces : List Token, significant spaces = [] →
          significant (if isEmpty inodes i then [] else spaces) = [] := by
        intro spaces hspaces
        split
        · rfl
        · exact hspaces
      simp only [significant_append, significant_dirXML, significant_printIdentXML,
        hsignificant [newlineXML] rfl, hsignificant (printIdentXML sub) rfl,
        List.append_assoc, List.nil_append]
      exact .nested hspells .nil
    · rw [treesOf, if_pos hdir, ← readLabel_attributesOf (.inl rfl)]
      simp [readElements, readElement, hread]
  · rw [if_neg hdir] at hrun
    rw [treesOf, if_neg hdir]
    by_cases hreg : node.isReg = true
    · rw [if_pos hreg, Run.pure_eq_ok, Except.ok.injEq] at hrun
      rw [if_pos hreg, ← hrun]
      refine ⟨printIdentXML sub ++ fileXML node,
        [.mk fileText (attributesOf compressedText .file node) []], rfl, ?_, ?_⟩
      · rw [significant_append, significant_printIdentXML, significant_fileXML]
        exact .empty .nil
      · rw [← readLabel_attributesOf (.inl rfl)]
        rfl
    · rw [if_neg hreg] at hrun ⊢
      by_cases hlnk : node.isLnk = true
      · rw [if_pos hlnk, Run.pure_eq_ok, Except.ok.injEq] at hrun
        rw [if_pos hlnk, ← hrun]
        refine ⟨printIdentXML sub ++ linkXML node,
          [.mk linkText (attributesOf compressedText .link node) []], rfl, ?_, ?_⟩
        · rw [significant_append, significant_printIdentXML, significant_linkXML]
          exact .empty .nil
        · rw [← readLabel_attributesOf (.inl rfl)]
          rfl
      · rw [if_neg hlnk, Run.pure_eq_ok, Except.ok.injEq] at hrun
        rw [if_neg hlnk, ← hrun]
        exact .refl fp

end Walk

theorem walkXML_prints {inodes : Table} {fuel sub : ℕ} {parentid : ℤ}
    {fp next : Printer Token} (hrun : walkXML inodes fuel parentid sub fp = .ok next) :
    PrintsXML fp next (forest inodes fuel parentid) := by
  induction fuel generalizing parentid sub fp next with
  | zero => simp [walkXML] at hrun
  | succ fuel ih =>
      rw [walkXML, Run.foldlM_filter
        (fun i => (inodes[i]?).any fun node => node.parentid = parentid)] at hrun
      · rw [forest_eq_flatMap]
        refine Run.foldlM_done (fun before state => PrintsXML fp state
          (before.flatMap (treesAt inodes fun i => forest inodes fuel i))) hrun (.refl fp) ?_
        intro before i after state next hsplit hstate hstep
        have hi : i ∈ children Inode.parentid inodes parentid := by
          rw [hsplit]
          exact List.mem_append_right _ List.mem_cons_self
        obtain ⟨node, hnode, rfl⟩ := mem_children_iff.mp hi
        rw [List.flatMap_append, List.flatMap_singleton, treesAt, hnode]
        exact hstate.trans (entryXML_prints (fun sub fp next => ih) hnode hstep)
      · intro state i hmem hnot
        obtain ⟨node, hnode, hne⟩ := exists_of_not_child hmem hnot
        rw [walkXMLEntry, entry_eq_ok.mpr hnode, Run.ok_bind, if_pos hne]
        rfl

end XML

/-! ## `WalkJSON` -/

section JSON

open Tcb.Json

theorem significant_printIdentJSON (sub : ℕ) : significant (printIdentJSON sub) = [] := rfl

/-- A member that is printed or left out, with the comma in front of it. -/
theorem significant_optionalJSON (present : Prop) [Decidable present] (key text : List Byte)
    (quoted : Bool) :
    significant (if present then
        [.comma, blankJSON, .string key, .colon,
          if quoted then .string text else .number text] else []) =
      moreMemberTokens (Slot.members ⟨key, quoted, optionalText present text⟩) := by
  by_cases hpresent : present <;> cases quoted <;> simp [optionalText, hpresent] <;> rfl

theorem moreMemberTokens_cons (slot : Slot) (slots : List Slot) :
    moreMemberTokens ((slot :: slots).flatMap Slot.members) =
      moreMemberTokens slot.members ++ moreMemberTokens (slots.flatMap Slot.members) := by
  rw [List.flatMap_cons, moreMemberTokens_append]

theorem significant_ownerJSON (node : Inode) :
    significant (ownerJSON node) =
      moreMemberTokens ((ownerSlots node).flatMap Slot.members) := by
  have huid := significant_optionalJSON (node.uid ≠ 0) uidText (decimal node.uid) false
  have hgid := significant_optionalJSON (node.gid ≠ 0) gidText (decimal node.gid) false
  simp only [Bool.false_eq_true, if_false] at huid hgid
  rw [ownerJSON, significant_append, huid, hgid, ownerSlots, moreMemberTokens_cons,
    moreMemberTokens_cons]
  exact congrArg _ (List.append_nil _).symm

/-- The tokens of the members, after the opening brace. -/
theorem memberTokens_valueMembers (kind : Kind) (node : Inode)
    (more : List (List Byte × Value)) :
    memberTokens (valueMembers kind node ++ more) =
      .string nameText :: .colon :: .string (nameOf node) ::
        (moreMemberTokens ((slots compressedKey node kind).flatMap Slot.members) ++
          moreMemberTokens more) := by
  rw [valueMembers, List.cons_append, memberTokens, moreMemberTokens_append, Value.tokens]
  rfl

theorem significant_fileJSON (node : Inode) :
    significant (fileJSON node) = (Value.object (valueMembers .file node)).tokens := by
  have hcompressed := significant_optionalJSON (node.compressed = true) compressedKey one false
  have hload := significant_optionalJSON (node.load = true) loadText one false
  have hsrc := significant_optionalJSON (node.src.bytes ≠ []) srcText node.src.bytes true
  simp only [Bool.false_eq_true, if_false, if_true, Bool.decide_eq_true] at hcompressed hload hsrc
  have hmembers := memberTokens_valueMembers .file node []
  rw [List.append_nil] at hmembers
  rw [Value.tokens, hmembers]
  simp only [fileJSON, significant_append, significant_ownerJSON, hcompressed, hload, hsrc,
    slots, List.flatMap_append, moreMemberTokens_append, moreMemberTokens_cons]
  simp only [List.append_assoc, List.cons_append]
  rfl

theorem significant_linkJSON (node : Inode) :
    significant (linkJSON node) = (Value.object (valueMembers .link node)).tokens := by
  have hmembers := memberTokens_valueMembers .link node []
  rw [List.append_nil] at hmembers
  rw [Value.tokens, hmembers]
  rfl

/-- A directory is its own members and the items inside. -/
theorem tokens_dirValue (node : Inode) (items : List Value) :
    (Value.object (valueMembers .dir node ++ [(childText, .array items)])).tokens =
      significant (headJSON node) ++ (significant (ownerJSON node) ++
        (Token.comma :: Token.string childText :: Token.colon :: Token.lbracket ::
          (itemTokens items ++ [Token.rbracket, Token.rbrace]))) := by
  rw [Value.tokens, memberTokens_valueMembers, significant_ownerJSON, slots,
    moreMemberTokens_cons, moreMemberTokens, moreMemberTokens, Value.tokens]
  simp only [List.append_assoc, List.cons_append, List.nil_append]
  rfl

/-- What was added to the file is a list of values without the brackets. -/
def PrintsItems (fp next : Printer Token) (trees : List Tree) : Prop :=
  ∃ tokens items, next.out = fp.out ++ tokens ∧ significant tokens = itemTokens items ∧
    readValues items = some trees

/-- What was added to the file is one value. -/
def PrintsValue (fp next : Printer Token) (tree : Tree) : Prop :=
  ∃ tokens value, next.out = fp.out ++ tokens ∧ significant tokens = Value.tokens value ∧
    readValue value = some tree

/-- The entry of one inode, when it is printed. -/
theorem entryJSON_prints {inodes : Table} {inside : List Tree} {i : ℕ} {node : Inode}
    {walk : ℤ → ℕ → Printer Token → Run ExitReason (Printer Token)}
    (hwalk : ∀ sub fp next, walk i sub fp = .ok next → PrintsItems fp next inside)
    (hempty : isEmpty inodes i = true → inside = []) {sub : ℕ} {fp next : Printer Token}
    (hrun : entryJSON inodes walk sub i node fp = .ok next) :
    ∃ tree, treesOf node inside = [tree] ∧ PrintsValue fp next tree := by
  rw [entryJSON] at hrun
  by_cases hdir : node.isDir = true
  · rw [if_pos hdir] at hrun
    rw [treesOf, if_pos hdir]
    refine ⟨_, rfl, ?_⟩
    by_cases hnone : isEmpty inodes i = true
    · simp only [hnone, if_true, Run.pure_eq_ok, Except.ok.injEq] at hrun
      rw [← hrun, hempty hnone]
      refine ⟨_, .object (valueMembers .dir node ++ [(childText, .array [])]),
        List.append_assoc _ _ _, ?_, readValue_dir rfl⟩
      rw [tokens_dirValue, significant_append, significant_append, significant_append]
      simp [itemTokens, significant_printIdentJSON]
      rfl
    · simp only [hnone, Bool.false_eq_true, if_false, Run.bind_eq_ok, Run.pure_eq_ok,
        Except.ok.injEq] at hrun
      obtain ⟨inner, hinner, rfl⟩ := hrun
      obtain ⟨tokens, items, hout, htokens, hread⟩ := hwalk _ _ _ hinner
      refine ⟨printIdentJSON sub ++ headJSON node ++ ownerJSON node ++
          [Token.comma, blankJSON, Token.string childText, Token.colon, Token.lbracket,
            newlineJSON] ++ tokens ++ (printIdentJSON sub ++ [Token.rbracket, Token.rbrace]),
        .object (valueMembers .dir node ++ [(childText, .array items)]), ?_, ?_,
        readValue_dir hread⟩
      · simp [Printer.print, hout]
      · rw [tokens_dirValue, ← htokens]
        simp only [significant_append, significant_printIdentJSON, List.nil_append,
          List.append_assoc]
        rfl
  · rw [if_neg hdir] at hrun
    rw [treesOf, if_neg hdir]
    by_cases hreg : node.isReg = true
    · rw [if_pos hreg, Run.pure_eq_ok, Except.ok.injEq] at hrun
      rw [if_pos hreg, ← hrun]
      refine ⟨_, rfl, printIdentJSON sub ++ fileJSON node, .object (valueMembers .file node),
        rfl, ?_, readValue_leaf (by decide) node⟩
      rw [significant_append, significant_printIdentJSON, significant_fileJSON,
        List.nil_append]
    · rw [if_neg hreg] at hrun ⊢
      by_cases hlnk : node.isLnk = true
      · rw [if_pos hlnk, Run.pure_eq_ok, Except.ok.injEq] at hrun
        rw [if_pos hlnk, ← hrun]
        refine ⟨_, rfl, printIdentJSON sub ++ linkJSON node,
          .object (valueMembers .link node), rfl, ?_, readValue_leaf (by decide) node⟩
        rw [significant_append, significant_printIdentJSON, significant_linkJSON,
          List.nil_append]
      · rw [if_neg hlnk] at hrun
        simp at hrun

/-- The first loop counts the entries of the second one. -/
theorem countChildren_eq (inodes : Table) (parentid : ℤ) :
    countChildren inodes parentid = (children Inode.parentid inodes parentid).length := by
  have hmap : (List.range inodes.length).map (fun i => inodes[i]?) = inodes.map some := by
    apply List.ext_getElem?
    intro i
    rcases Nat.lt_or_ge i inodes.length with hlt | hge
    · simp [hlt]
    · simp [hge]
  calc countChildren inodes parentid
      = (inodes.map some).countP fun found => found.any fun node =>
          node.parentid = parentid := by
        rw [countChildren, List.countP_map]
        rfl
    _ = (List.range inodes.length).countP fun i =>
          (inodes[i]?).any fun node => node.parentid = parentid := by
        rw [← hmap, List.countP_map]
        rfl
    _ = (children Inode.parentid inodes parentid).length := by
        rw [children, List.countP_eq_length_filter]

/-- The loop over the siblings: `n` of them are left, and a comma follows the
values so far as long as there are any of both. -/
def PrintsSome (fp : Printer Token) (state : Printer Token × ℤ) (left : ℕ)
    (trees : List Tree) : Prop :=
  state.2 = left ∧ ∃ tokens items, state.1.out = fp.out ++ tokens ∧
    significant tokens =
      itemTokens items ++ (if items = [] ∨ left = 0 then [] else [.comma]) ∧
    readValues items = some trees

theorem PrintsSome.entry {fp entered : Printer Token} {state : Printer Token × ℤ}
    {left : ℕ} {trees : List Tree} {tree : Tree} (hstate : PrintsSome fp state (left + 1) trees)
    (hentry : PrintsValue state.1 entered tree) :
    PrintsSome fp (entered.print (separatorJSON (state.2 - 1)), state.2 - 1) left
      (trees ++ [tree]) := by
  obtain ⟨hcount, tokens, items, hout, htokens, hread⟩ := hstate
  obtain ⟨tokens', value, hout', htokens', hread'⟩ := hentry
  have hleft : state.2 - 1 = left := by
    rw [hcount]
    push_cast
    ring
  refine ⟨hleft, tokens ++ tokens' ++ separatorJSON left, items ++ [value], ?_, ?_, ?_⟩
  · rw [hleft, Printer.print, hout', hout, List.append_assoc, List.append_assoc,
      List.append_assoc]
  · have hseparator : significant (separatorJSON left) =
        if items ++ [value] = [] ∨ left = 0 then [] else [.comma] := by
      by_cases hlast : left = 0
      · simp [separatorJSON, hlast]
        rfl
      · simp [separatorJSON, hlast]
        rfl
    rw [significant_append, significant_append, htokens, htokens', hseparator,
      itemTokens_concat]
    simp
  · exact readValues_append hread (by simp [readValues, hread'])

theorem walkJSON_prints {inodes : Table} {fuel sub : ℕ} {parentid : ℤ}
    {fp next : Printer Token} (hrun : walkJSON inodes fuel parentid sub fp = .ok next) :
    PrintsItems fp next (forest inodes fuel parentid) := by
  induction fuel generalizing parentid sub fp next with
  | zero => simp [walkJSON] at hrun
  | succ fuel ih =>
      rw [walkJSON, Run.map_eq_ok, countChildren_eq] at hrun
      obtain ⟨final, hloop, rfl⟩ := hrun
      rw [Run.foldlM_filter
        (fun i => (inodes[i]?).any fun node => node.parentid = parentid)] at hloop
      · rw [← children_eq_filter] at hloop
        suffices hall : PrintsSome fp final 0
            ((children Inode.parentid inodes parentid).flatMap
              (treesAt inodes fun i => forest inodes fuel i)) by
          obtain ⟨-, tokens, items, hout, htokens, hread⟩ := hall
          exact ⟨tokens, items, hout, by simpa using htokens, hread⟩
        have hall := Run.foldlM_done (fun before state => PrintsSome fp state
          ((children Inode.parentid inodes parentid).length - before.length)
          (before.flatMap (treesAt inodes fun i => forest inodes fuel i))) hloop
          ⟨by simp, [], [], by simp, by simp [itemTokens], rfl⟩ ?_
        · rwa [Nat.sub_self] at hall
        · rintro before i after ⟨reached, n⟩ next hsplit hstate hstep
          have hi : i ∈ children Inode.parentid inodes parentid := by
            rw [hsplit]
            exact List.mem_append_right _ List.mem_cons_self
          obtain ⟨node, hnode, rfl⟩ := mem_children_iff.mp hi
          rw [walkJSONEntry, entry_eq_ok.mpr hnode, Run.ok_bind, if_neg (by simp)] at hstep
          simp only [Run.bind_eq_ok, Run.pure_eq_ok, Except.ok.injEq] at hstep
          obtain ⟨entered, hentry, rfl⟩ := hstep
          obtain ⟨tree, htree, hprints⟩ := entryJSON_prints (fun sub fp next => ih)
            (fun hempty => forest_of_isEmpty hempty fuel) hentry
          have hlength : (children Inode.parentid inodes node.parentid).length - before.length =
              (children Inode.parentid inodes node.parentid).length -
                (before ++ [i]).length + 1 := by
            have htotal := congrArg List.length hsplit
            simp only [List.length_append, List.length_cons, List.length_nil] at htotal ⊢
            omega
          rw [hlength] at hstate
          rw [List.flatMap_append, List.flatMap_singleton, treesAt, hnode, Option.elim_some,
            htree]
          exact hstate.entry hprints
      · rintro ⟨reached, n⟩ i hmem hnot
        obtain ⟨node, hnode, hne⟩ := exists_of_not_child hmem hnot
        rw [walkJSONEntry, entry_eq_ok.mpr hnode, Run.ok_bind, if_pos hne]
        rfl

end JSON

/-! ## The whole manifests -/

/-- Each manifest is one well-formed text, and both read back as the folder of
the files and the forest of the table. -/
structure ManifestsAgree (inodes : Table) (json : Printer Json.Token)
    (xml : Printer Xml.Token) : Prop where
  jsonValue : ∃ value, Json.significant json.out = Json.Value.tokens value ∧
    Json.parse json.out = some value ∧
    readManifest value = some (fsSlash, forestOf inodes (-1))
  xmlElement : ∃ element, Xml.Spells (Xml.significant xml.out) [element] ∧
    Xml.parse xml.out = some element ∧
    readDocument element = some (fsSlash, forestOf inodes (-1))
  forest_eq : ∀ under, forestOf inodes under =
    (children Inode.parentid inodes under).flatMap fun (i : ℕ) =>
      (inodes[i]?).elim [] fun node => treesOf node (forestOf inodes i)

theorem createJSON_value {inodes : Table} {json : Printer Json.Token}
    (hrun : createJSON inodes = .ok json) :
    ∃ value, Json.significant json.out = Json.Value.tokens value ∧
      readManifest value = some (fsSlash, forestOf inodes (-1)) := by
  rw [createJSON, Run.bind_eq_ok] at hrun
  obtain ⟨inner, hinner, hrun⟩ := hrun
  rw [Run.pure_eq_ok, Except.ok.injEq] at hrun
  obtain ⟨tokens, items, hout, htokens, hread⟩ := walkJSON_prints hinner
  refine ⟨.object [(srcText, .string fsSlash), (fsText, .array items)], ?_, ?_⟩
  · rw [← hrun, Printer.print, hout]
    simp only [Json.significant_append, htokens, Json.Value.tokens, Json.memberTokens,
      Json.moreMemberTokens, List.append_assoc, List.cons_append, List.nil_append]
    rfl
  · have hitems : readItems (.array items) = some (forestOf inodes (-1)) := hread
    rw [readManifest]
    simp only [show List.lookup fsText [(srcText, Json.Value.string fsSlash),
        (fsText, .array items)] = some (.array items) from rfl, Option.bind_eq_bind,
      Option.bind_some, hitems]
    rfl

theorem createXML_element {inodes : Table} {xml : Printer Xml.Token}
    (hrun : createXML inodes = .ok xml) :
    ∃ element, Xml.Spells (Xml.significant xml.out) [element] ∧
      readDocument element = some (fsSlash, forestOf inodes (-1)) := by
  rw [createXML, Run.bind_eq_ok] at hrun
  obtain ⟨inner, hinner, hrun⟩ := hrun
  rw [Run.pure_eq_ok, Except.ok.injEq] at hrun
  obtain ⟨tokens, elements, hout, hspells, hread⟩ := walkXML_prints hinner
  refine ⟨.mk rootText [(srcText, fsSlash)] elements, ?_, ?_⟩
  · have hroot : Xml.Spells (.start rootText :: (Xml.attributeTokens [(srcText, fsSlash)] ++
        .close :: (Xml.significant tokens ++ [.finish rootText])))
        [.mk rootText [(srcText, fsSlash)] elements] := .nested hspells .nil
    rw [← hrun, Printer.print, hout]
    simp only [Xml.significant_append, List.append_assoc]
    exact hroot
  · rw [readDocument, hread]
    rfl

/-- The two manifests of a table that was merged, and may have been walked
over, agree. -/
theorem createManifests_agree {merged inodes : Table} (hreach : Reachable merged)
    (hsame : SameTree merged inodes) {json : Printer Json.Token}
    (hjson : createJSON inodes = .ok json) :
    ∃ xml, createXML inodes = .ok xml ∧ ManifestsAgree inodes json xml := by
  have hshape : Shape inodes := hsame.shape (reachable_shape hreach)
  obtain ⟨xml, hxml⟩ := Visits.createXML_returns hshape
  obtain ⟨value, htokens, hvalue⟩ := createJSON_value hjson
  obtain ⟨element, hspells, helement⟩ := createXML_element hxml
  exact ⟨xml, hxml, {
    jsonValue := ⟨value, htokens, Json.parse_of_significant htokens, hvalue⟩
    xmlElement := ⟨element, hspells, Xml.parse_of_spells hspells, helement⟩
    forest_eq := forestOf_eq (parentsFirst hshape) }⟩

theorem createManifests_agree_smallTable :
    ∃ json, createJSON TarHeader.smallTable = .ok json ∧
      ∃ xml, createXML TarHeader.smallTable = .ok xml ∧
        ManifestsAgree TarHeader.smallTable json xml := by
  have hreach : Reachable TarHeader.smallTable := ⟨_, TarHeader.mergeAll_smallTable⟩
  obtain ⟨json, hjson⟩ := Visits.createJSON_returns (reachable_shape hreach) (by decide +kernel)
  exact ⟨json, hjson, createManifests_agree hreach (.refl _) hjson⟩

end Tcb.Agreement
