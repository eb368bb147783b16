import Mathlib.Data.Bool.AllAny
import Tcb.Core.JsonText
import Tcb.Core.XmlText
import Tcb.Fs2Xml.Agreement
import Tcb.Fs2Xml.Strings

/-!
# The manifests as bytes

What is written to `fs.json` and to `fs.xml` is read by somebody who sees bytes
only, and has to find the tokens in them.  As long as every string that an inode
shows is plain, the bytes of either file are read back as the forest of the
table.
-/

namespace Tcb.ManifestText

open Tcb.CString
open Tcb.Literals
open Tcb.Numerals
open Tcb.Inodes
open Tcb.MergeFile
open Tcb.Paths
open Tcb.TableShape
open Tcb.Manifest
open Tcb.Forest
open Tcb.Strings

/-- Every string that an inode shows in a manifest is plain. -/
def Plain (plain : ℕ → Prop) (inodes : Table) : Prop :=
  ∀ node ∈ inodes, ∀ pair ∈ shown node, AllChars plain pair.2

/-! ## Plain texts -/

section Texts

variable {property : ℕ → Prop}

/-- Bytes below 128 are characters. -/
theorem allChars_ascii {text : List Byte}
    (hall : ∀ byte ∈ text, byte.toNat < 0x80 ∧ property byte.toNat) :
    AllChars property text := by
  induction text with
  | nil => exact .nil
  | cons byte rest ih =>
      obtain ⟨⟨hascii, hproperty⟩, hrest⟩ := List.forall_mem_cons.mp hall
      exact .cons (takeChar_ascii hascii rest) hproperty (ih hrest)

theorem allChars_octal (hdigit : ∀ c, 48 ≤ c → c < 58 → property c) (mode : Mode) :
    AllChars property (octal mode) := by
  apply allChars_ascii
  intro byte hbyte
  obtain ⟨hlow, hhigh⟩ := range_toDigits (by decide) (by decide) mode.toNat byte hbyte
  exact ⟨by omega, hdigit _ hlow hhigh⟩

theorem allChars_decimal (hsign : property 45) (hdigit : ∀ c, 48 ≤ c → c < 58 → property c)
    (value : ℤ) : AllChars property (decimal value) := by
  have hdigits : ∀ byte ∈ ascii (Nat.toDigits 10 value.natAbs),
      byte.toNat < 0x80 ∧ property byte.toNat := by
    intro byte hbyte
    obtain ⟨hlow, hhigh⟩ := range_toDigits (by decide) le_rfl value.natAbs byte hbyte
    exact ⟨by omega, hdigit _ hlow hhigh⟩
  apply allChars_ascii
  rw [decimal]
  split
  · exact List.forall_mem_cons.mpr ⟨⟨by decide, hsign⟩, hdigits⟩
  · exact hdigits

/-- Letters are characters. -/
theorem allChars_letters (hletter : ∀ c, 65 ≤ c → c < 123 → c ≠ 92 → property c)
    {text : List Byte} (hall : text.all XmlText.isLetter = true) : AllChars property text := by
  apply allChars_ascii
  intro byte hbyte
  have hbounds := List.all_eq_true.mp hall byte hbyte
  simp only [XmlText.isLetter, decide_eq_true_eq] at hbounds
  exact ⟨by omega, hletter _ (by omega) (by omega) (by omega)⟩

theorem forall_mem_optional {τ : Type} {good : τ → Prop} {present : Prop} [Decidable present]
    {tokens : List τ} (hall : present → ∀ token ∈ tokens, good token) :
    ∀ token ∈ (if present then tokens else []), good token := by
  by_cases hpresent : present
  · rw [if_pos hpresent]
    exact hall hpresent
  · rw [if_neg hpresent]
    exact fun _ hmem => absurd hmem List.not_mem_nil

end Texts

/-! ## `fs.json` -/

section JSON

open Tcb.Json
open Tcb.JsonText

/-- Everything that was printed is spelled by its bytes. -/
def SpelledJSON (tokens : List Token) : Prop := ∀ token ∈ tokens, Spelled token

theorem plainJson_digit (c : ℕ) (hlow : 48 ≤ c) (hhigh : c < 58) : plainJson c :=
  ⟨by omega, by omega, by omega⟩

theorem spelled_decimal (value : ℤ) : Spelled (.number (decimal value)) := spelled_printed value

theorem spelled_word {text : List Byte} (hall : text.all XmlText.isLetter = true) :
    Spelled (.string text) :=
  allChars_letters (fun _ hlow _ hne => ⟨by omega, hne, by omega⟩) hall

theorem spelledJSON_append {left right : List Token} :
    SpelledJSON (left ++ right) ↔ SpelledJSON left ∧ SpelledJSON right :=
  List.forall_mem_append

theorem spelledJSON_cons {token : Token} {tokens : List Token} :
    SpelledJSON (token :: tokens) ↔ Spelled token ∧ SpelledJSON tokens :=
  List.forall_mem_cons

/-- `, "key":` in front of a value. -/
theorem spelledJSON_member {key : List Byte} {value : Token}
    (hkey : key.all XmlText.isLetter = true) (hvalue : Spelled value) :
    SpelledJSON [.comma, blankJSON, .string key, .colon, value] := by
  simp only [spelledJSON_cons]
  exact ⟨trivial, rfl, spelled_word hkey, trivial, hvalue, by simp [SpelledJSON]⟩

theorem spelledJSON_printIdent (sub : ℕ) : SpelledJSON (printIdentJSON sub) := by
  rw [printIdentJSON, spelledJSON_cons]
  refine ⟨?_, by simp [SpelledJSON]⟩
  rw [Spelled, List.all_eq_true]
  intro byte hbyte
  rw [List.eq_of_mem_replicate hbyte]
  decide

theorem spelledJSON_owner (node : Inode) : SpelledJSON (ownerJSON node) := by
  rw [ownerJSON, spelledJSON_append]
  exact ⟨forall_mem_optional fun _ => spelledJSON_member (by decide) (spelled_decimal _),
    forall_mem_optional fun _ => spelledJSON_member (by decide) (spelled_decimal _)⟩

theorem spelledJSON_head {node : Inode} (hname : AllChars plainJson (nameOf node)) :
    SpelledJSON (headJSON node) := by
  simp only [headJSON, spelledJSON_cons]
  exact ⟨trivial, rfl, spelled_word (by decide), trivial, hname, trivial, rfl,
    spelled_word (by decide), trivial, allChars_octal plainJson_digit _,
    by simp [SpelledJSON]⟩

theorem spelledJSON_file {node : Inode} (hname : AllChars plainJson (nameOf node))
    (hsrc : node.src.bytes ≠ [] → AllChars plainJson node.src.bytes) :
    SpelledJSON (fileJSON node) := by
  simp only [fileJSON, spelledJSON_append]
  have hone : Spelled (.number one) := spelled_decimal 1
  refine ⟨⟨⟨⟨⟨⟨spelledJSON_head hname, ?_⟩, spelledJSON_owner node⟩, ?_⟩, ?_⟩, ?_⟩, ?_⟩
  · exact spelledJSON_member (by decide) (spelled_decimal _)
  · exact forall_mem_optional fun _ => spelledJSON_member (by decide) hone
  · exact forall_mem_optional fun _ => spelledJSON_member (by decide) hone
  · exact forall_mem_optional fun hpresent =>
      spelledJSON_member (by decide) (hsrc hpresent)
  · exact spelledJSON_cons.mpr ⟨trivial, by simp [SpelledJSON]⟩

theorem spelledJSON_link {node : Inode} (hname : AllChars plainJson (nameOf node))
    (hlink : AllChars plainJson node.link.bytes) : SpelledJSON (linkJSON node) := by
  rw [linkJSON, spelledJSON_append]
  have hpath : SpelledJSON [.comma, blankJSON, .string pathText, .colon,
      .string node.link.bytes] := spelledJSON_member (by decide) hlink
  simp only [spelledJSON_cons] at hpath ⊢
  exact ⟨spelledJSON_head hname, hpath.1, hpath.2.1, hpath.2.2.1, hpath.2.2.2.1,
    hpath.2.2.2.2.1, trivial, by simp [SpelledJSON]⟩

theorem spelledJSON_separator (n : ℤ) : SpelledJSON (separatorJSON n) := by
  rw [separatorJSON]
  split <;> simp only [spelledJSON_cons]
  · exact ⟨rfl, by simp [SpelledJSON]⟩
  · exact ⟨trivial, rfl, by simp [SpelledJSON]⟩

section Walk

variable {inodes : Table} {sub i : ℕ} {node : Inode} {fp next : Printer Token}
  {walk : ℤ → ℕ → Printer Token → Run ExitReason (Printer Token)}

theorem shown_name (node : Inode) (hknown : node.isDir = true ∨ node.isReg = true ∨
    node.isLnk = true) : (nameText, nameOf node) ∈ shown node := by
  rw [shown]
  split
  · exact List.mem_singleton_self _
  · split
    · exact List.mem_cons_self
    · rename_i hdir hreg
      rw [if_pos ((hknown.resolve_left hdir).resolve_left hreg)]
      exact List.mem_cons_self

theorem entryJSON_spelled
    (hwalk : ∀ sub fp next, walk i sub fp = .ok next → SpelledJSON fp.out → SpelledJSON next.out)
    (hplain : ∀ pair ∈ shown node, AllChars plainJson pair.2)
    (hrun : entryJSON inodes walk sub i node fp = .ok next) (hfp : SpelledJSON fp.out) :
    SpelledJSON next.out := by
  rw [entryJSON] at hrun
  by_cases hdir : node.isDir = true
  · rw [if_pos hdir] at hrun
    have hname : AllChars plainJson (nameOf node) := hplain _ (shown_name node (.inl hdir))
    have hhead : SpelledJSON (fp.print (printIdentJSON sub ++ headJSON node ++
        ownerJSON node)).out := by
      simp only [Printer.print, spelledJSON_append]
      exact ⟨hfp, ⟨spelledJSON_printIdent sub, spelledJSON_head hname⟩, spelledJSON_owner node⟩
    have hchild : SpelledJSON [.comma, blankJSON, .string childText, .colon, .lbracket] :=
      spelledJSON_member (by decide) trivial
    by_cases hempty : isEmpty inodes i = true
    · simp only [hempty, if_true, Run.pure_eq_ok, Except.ok.injEq] at hrun
      rw [← hrun, Printer.print, spelledJSON_append]
      refine ⟨hhead, ?_⟩
      have hclose : SpelledJSON [.rbracket, blankJSON, .rbrace] := by
        simp only [spelledJSON_cons]
        exact ⟨trivial, rfl, trivial, by simp [SpelledJSON]⟩
      exact spelledJSON_append.mpr ⟨hchild, hclose⟩
    · simp only [hempty, Bool.false_eq_true, if_false, Run.bind_eq_ok, Run.pure_eq_ok,
        Except.ok.injEq] at hrun
      obtain ⟨inner, hinner, rfl⟩ := hrun
      have hnewline : SpelledJSON [newlineJSON] := spelledJSON_cons.mpr ⟨rfl, by simp [SpelledJSON]⟩
      have hopen : SpelledJSON ([.comma, blankJSON, .string childText, .colon, .lbracket] ++
          [newlineJSON]) := spelledJSON_append.mpr ⟨hchild, hnewline⟩
      have hinside := hwalk _ _ _ hinner (spelledJSON_append.mpr ⟨hhead, hopen⟩)
      rw [Printer.print, spelledJSON_append, spelledJSON_append]
      refine ⟨hinside, spelledJSON_printIdent sub, ?_⟩
      simp only [spelledJSON_cons]
      exact ⟨trivial, trivial, by simp [SpelledJSON]⟩
  · rw [if_neg hdir] at hrun
    by_cases hreg : node.isReg = true
    · rw [if_pos hreg, Run.pure_eq_ok, Except.ok.injEq] at hrun
      rw [shown, if_neg hdir, if_pos hreg] at hplain
      obtain ⟨hname, hsrc⟩ := List.forall_mem_cons.mp hplain
      rw [← hrun, Printer.print, spelledJSON_append, spelledJSON_append]
      refine ⟨hfp, spelledJSON_printIdent sub, spelledJSON_file hname ?_⟩
      intro hne
      rw [if_pos hne] at hsrc
      exact hsrc _ (List.mem_singleton_self _)
    · rw [if_neg hreg] at hrun
      by_cases hlnk : node.isLnk = true
      · rw [if_pos hlnk, Run.pure_eq_ok, Except.ok.injEq] at hrun
        rw [shown, if_neg hdir, if_neg hreg, if_pos hlnk] at hplain
        obtain ⟨hname, hlink⟩ := List.forall_mem_cons.mp hplain
        rw [← hrun, Printer.print, spelledJSON_append, spelledJSON_append]
        exact ⟨hfp, spelledJSON_printIdent sub,
          spelledJSON_link hname (hlink _ (List.mem_singleton_self _))⟩
      · rw [if_neg hlnk] at hrun
        exact absurd hrun (Run.exit_ne_ok _ _)

theorem walkJSON_spelled (hplain : Plain plainJson inodes) {fuel : ℕ} {parentid : ℤ}
    (hrun : walkJSON inodes fuel parentid sub fp = .ok next) (hfp : SpelledJSON fp.out) :
    SpelledJSON next.out := by
  induction fuel generalizing parentid sub fp next with
  | zero => exact absurd hrun (Run.outOfFuel_ne_ok _)
  | succ fuel ih =>
      rw [walkJSON, Run.map_eq_ok] at hrun
      obtain ⟨final, hloop, rfl⟩ := hrun
      refine Run.foldlM_invariant (fun state => SpelledJSON state.1.out) hloop hfp ?_
      intro state index after _ hstate hstep
      rw [walkJSONEntry, Run.bind_eq_ok] at hstep
      obtain ⟨node, hnode, hstep⟩ := hstep
      split at hstep
      · rw [Run.pure_eq_ok, Except.ok.injEq] at hstep
        exact hstep ▸ hstate
      · simp only [Run.bind_eq_ok, Run.pure_eq_ok, Except.ok.injEq] at hstep
        obtain ⟨entered, hentry, rfl⟩ := hstep
        have hmem : node ∈ inodes := List.mem_of_getElem? (entry_eq_ok.mp hnode)
        have hentered := entryJSON_spelled (fun sub fp next => ih) (hplain node hmem) hentry hstate
        exact spelledJSON_append.mpr ⟨hentered, spelledJSON_separator _⟩

end Walk

/-- Everything in the file is spelled by its bytes. -/
theorem createJSON_spelled {inodes : Table} (hplain : Plain plainJson inodes)
    {json : Printer Token} (hrun : createJSON inodes = .ok json) : SpelledJSON json.out := by
  rw [createJSON, Run.bind_eq_ok] at hrun
  obtain ⟨inner, hinner, hrun⟩ := hrun
  rw [Run.pure_eq_ok, Except.ok.injEq] at hrun
  have hroot : Spelled (.string fsSlash) :=
    allChars_ascii (List.all_iff_forall_prop.mp (by decide))
  have hopen : SpelledJSON [.lbrace, .string srcText, .colon, .string fsSlash, .comma,
      blankJSON, .string fsText, .colon, .lbracket, newlineJSON] := by
    simp only [spelledJSON_cons]
    exact ⟨trivial, spelled_word (by decide), trivial, hroot, trivial, rfl,
      spelled_word (by decide), trivial, trivial, rfl, by simp [SpelledJSON]⟩
  rw [← hrun, Printer.print, spelledJSON_append]
  refine ⟨walkJSON_spelled hplain hinner hopen, ?_⟩
  simp only [spelledJSON_cons]
  exact ⟨trivial, trivial, rfl, by simp [SpelledJSON]⟩

end JSON

/-! ## `fs.xml` -/

section XML

open Tcb.Xml
open Tcb.XmlText

/-- Everything that was printed is spelled by its bytes. -/
def SpelledXML (tokens : List Token) : Prop := ∀ token ∈ tokens, Spelled token

theorem plainXml_digit (c : ℕ) (hlow : 48 ≤ c) (hhigh : c < 58) : plainXml c :=
  ⟨by omega, by omega, by omega, by omega, by omega, by omega⟩

theorem spelledXML_append {left right : List Token} :
    SpelledXML (left ++ right) ↔ SpelledXML left ∧ SpelledXML right :=
  List.forall_mem_append

theorem spelledXML_cons {token : Token} {tokens : List Token} :
    SpelledXML (token :: tokens) ↔ Spelled token ∧ SpelledXML tokens :=
  List.forall_mem_cons

theorem spelledXML_singleton {token : Token} (htoken : Spelled token) : SpelledXML [token] :=
  List.forall_mem_singleton.mpr htoken

/-- ` key='value'` with a number for its value. -/
theorem spelledXML_number {key : List Byte} (hkey : IsName key) (value : ℤ) :
    Spelled (.attr key (decimal value)) :=
  ⟨hkey, allChars_decimal (by decide) plainXml_digit value⟩

theorem spelledXML_mode (node : Inode) : Spelled (.attr modeText (octal node.mode)) :=
  ⟨(by decide : IsName _), allChars_octal plainXml_digit _⟩

theorem spelledXML_printIdent (sub : ℕ) : SpelledXML (printIdentXML sub) := by
  apply spelledXML_singleton
  rw [Spelled, List.all_eq_true]
  intro byte hbyte
  rw [List.eq_of_mem_replicate hbyte]
  decide

theorem spelledXML_owner (node : Inode) : SpelledXML (ownerXML node) := by
  rw [ownerXML, spelledXML_append]
  constructor
  · apply forall_mem_optional
    exact fun _ => spelledXML_singleton (spelledXML_number (by decide) _)
  · apply forall_mem_optional
    exact fun _ => spelledXML_singleton (spelledXML_number (by decide) _)

theorem spelledXML_name {node : Inode} (hname : AllChars plainXml (nameOf node)) :
    Spelled (.attr nameText (nameOf node)) :=
  ⟨(by decide : IsName _), hname⟩

theorem spelledXML_dir {node : Inode} (hname : AllChars plainXml (nameOf node)) :
    SpelledXML (dirXML node) := by
  simp only [dirXML, spelledXML_append, spelledXML_cons]
  exact ⟨⟨(by decide : IsName _), spelledXML_name hname, spelledXML_mode node,
    by simp [SpelledXML]⟩, spelledXML_owner node⟩

theorem spelledXML_file {node : Inode} (hname : AllChars plainXml (nameOf node))
    (hsrc : node.src.bytes ≠ [] → AllChars plainXml node.src.bytes) :
    SpelledXML (fileXML node) := by
  simp only [fileXML, spelledXML_append]
  have hone : AllChars plainXml one := allChars_ascii (List.all_iff_forall_prop.mp (by decide))
  refine ⟨⟨⟨⟨⟨?_, spelledXML_owner node⟩, ?_⟩, ?_⟩, ?_⟩, ?_⟩
  · simp only [spelledXML_cons]
    exact ⟨(by decide : IsName _), spelledXML_name hname, spelledXML_mode node,
      spelledXML_number (by decide) _, by simp [SpelledXML]⟩
  · apply forall_mem_optional
    exact fun _ => spelledXML_singleton ⟨(by decide : IsName _), hone⟩
  · apply forall_mem_optional
    exact fun _ => spelledXML_singleton ⟨(by decide : IsName _), hone⟩
  · apply forall_mem_optional
    exact fun hpresent =>
      spelledXML_singleton ⟨(by decide : IsName _), hsrc hpresent⟩
  · exact spelledXML_cons.mpr ⟨trivial, spelledXML_singleton rfl⟩

theorem spelledXML_link {node : Inode} (hname : AllChars plainXml (nameOf node))
    (hlink : AllChars plainXml node.link.bytes) : SpelledXML (linkXML node) := by
  simp only [linkXML, spelledXML_cons]
  exact ⟨(by decide : IsName _), spelledXML_name hname, spelledXML_mode node,
    ⟨(by decide : IsName _), hlink⟩, rfl, trivial, rfl, by simp [SpelledXML]⟩

section Walk

variable {inodes : Table} {sub i : ℕ} {node : Inode} {fp next : Printer Token}
  {walk : ℤ → ℕ → Printer Token → Run ExitReason (Printer Token)}

theorem entryXML_spelled
    (hwalk : ∀ sub fp next, walk i sub fp = .ok next → SpelledXML fp.out → SpelledXML next.out)
    (hplain : ∀ pair ∈ shown node, AllChars plainXml pair.2) (hnode : inodes[i]? = some node)
    (hrun : walkXMLEntry inodes walk node.parentid sub fp i = .ok next)
    (hfp : SpelledXML fp.out) : SpelledXML next.out := by
  rw [walkXMLEntry, entry_eq_ok.mpr hnode, Run.ok_bind, if_neg (by simp)] at hrun
  have hnewline : SpelledXML [newlineXML] := spelledXML_singleton rfl
  by_cases hdir : node.isDir = true
  · rw [if_pos hdir] at hrun
    simp only [Run.bind_eq_ok, Run.pure_eq_ok, Except.ok.injEq] at hrun
    obtain ⟨inner, hinner, rfl⟩ := hrun
    have hhead : SpelledXML (fp.out ++ (printIdentXML sub ++ dirXML node ++ [.close])) := by
      simp only [spelledXML_append]
      exact ⟨hfp, ⟨spelledXML_printIdent sub, spelledXML_dir (hplain _
        (shown_name node (.inl hdir)))⟩, spelledXML_singleton trivial⟩
    have hinside : SpelledXML inner.out := by
      refine hwalk _ _ _ hinner ?_
      split
      · exact hhead
      · exact spelledXML_append.mpr ⟨hhead, hnewline⟩
    have hfinish : SpelledXML [.finish dirText, newlineXML] :=
      spelledXML_cons.mpr ⟨(by decide : IsName _), hnewline⟩
    refine spelledXML_append.mpr ⟨?_, hfinish⟩
    split
    · exact hinside
    · exact spelledXML_append.mpr ⟨hinside, spelledXML_printIdent sub⟩
  · rw [if_neg hdir] at hrun
    by_cases hreg : node.isReg = true
    · rw [if_pos hreg, Run.pure_eq_ok, Except.ok.injEq] at hrun
      rw [shown, if_neg hdir, if_pos hreg] at hplain
      obtain ⟨hname, hsrc⟩ := List.forall_mem_cons.mp hplain
      rw [← hrun, Printer.print, spelledXML_append, spelledXML_append]
      refine ⟨hfp, spelledXML_printIdent sub, spelledXML_file hname ?_⟩
      intro hne
      rw [if_pos hne] at hsrc
      exact hsrc _ (List.mem_singleton_self _)
    · rw [if_neg hreg] at hrun
      by_cases hlnk : node.isLnk = true
      · rw [if_pos hlnk, Run.pure_eq_ok, Except.ok.injEq] at hrun
        rw [shown, if_neg hdir, if_neg hreg, if_pos hlnk] at hplain
        obtain ⟨hname, hlink⟩ := List.forall_mem_cons.mp hplain
        rw [← hrun, Printer.print, spelledXML_append, spelledXML_append]
        exact ⟨hfp, spelledXML_printIdent sub,
          spelledXML_link hname (hlink _ (List.mem_singleton_self _))⟩
      · rw [if_neg hlnk, Run.pure_eq_ok, Except.ok.injEq] at hrun
        rw [← hrun]
        exact hfp

theorem walkXML_spelled (hplain : Plain plainXml inodes) {fuel : ℕ} {parentid : ℤ}
    (hrun : walkXML inodes fuel parentid sub fp = .ok next) (hfp : SpelledXML fp.out) :
    SpelledXML next.out := by
  induction fuel generalizing parentid sub fp next with
  | zero => exact absurd hrun (Run.outOfFuel_ne_ok _)
  | succ fuel ih =>
      rw [walkXML] at hrun
      refine Run.foldlM_invariant (fun state => SpelledXML state.out) hrun hfp ?_
      intro state index after hindex hstate hstep
      have hlt : index < inodes.length := List.mem_range.mp hindex
      have hnode : inodes[index]? = some inodes[index] := List.getElem?_eq_getElem hlt
      by_cases hchild : inodes[index].parentid = parentid
      · rw [← hchild] at hstep
        exact entryXML_spelled (fun sub fp next => ih) (hplain _ (List.getElem_mem hlt)) hnode hstep
          hstate
      · rw [walkXMLEntry, entry_eq_ok.mpr hnode, Run.ok_bind, if_pos hchild, Run.pure_eq_ok,
          Except.ok.injEq] at hstep
        exact hstep ▸ hstate

end Walk

theorem createXML_spelled {inodes : Table} (hplain : Plain plainXml inodes)
    {xml : Printer Token} (hrun : createXML inodes = .ok xml) : SpelledXML xml.out := by
  rw [createXML, Run.bind_eq_ok] at hrun
  obtain ⟨inner, hinner, hrun⟩ := hrun
  rw [Run.pure_eq_ok, Except.ok.injEq] at hrun
  have hnewline : SpelledXML [newlineXML] := spelledXML_singleton rfl
  have hopen : SpelledXML [.start rootText, .attr srcText fsSlash, .close, newlineXML] := by
    simp only [spelledXML_cons]
    exact ⟨(by decide : IsName _), ⟨(by decide : IsName _),
      allChars_ascii (List.all_iff_forall_prop.mp (by decide))⟩, trivial, rfl, by simp [SpelledXML]⟩
  have hfinish : SpelledXML [.finish rootText, newlineXML] :=
    spelledXML_cons.mpr ⟨(by decide : IsName _), hnewline⟩
  rw [← hrun]
  exact spelledXML_append.mpr ⟨walkXML_spelled hplain hinner hopen, hfinish⟩

end XML

/-! ## Reading the bytes -/

/-- The folder of the files and the forest, from the bytes of `fs.json`. -/
def readJSON (text : List Byte) : Option (List Byte × List Tree) :=
  (JsonText.read text).bind readManifest

/-- The same from the bytes of `fs.xml`. -/
def readXML (text : List Byte) : Option (List Byte × List Tree) :=
  (XmlText.read text).bind readDocument

theorem readJSON_text {inodes : Table} (hplain : Plain plainJson inodes)
    {json : Printer Json.Token} (hjson : createJSON inodes = .ok json) :
    readJSON (textJSON json) = some (fsSlash, forestOf inodes (-1)) := by
  obtain ⟨value, htokens, hvalue⟩ := Agreement.createJSON_value hjson
  have hread : JsonText.read (textJSON json) = some value :=
    JsonText.read_bytes (createJSON_spelled hplain hjson) htokens
  rw [readJSON, hread]
  exact hvalue

theorem readXML_text {inodes : Table} (hplain : Plain plainXml inodes)
    {xml : Printer Xml.Token} (hxml : createXML inodes = .ok xml) :
    readXML (textXML xml) = some (fsSlash, forestOf inodes (-1)) := by
  obtain ⟨element, hspells, helement⟩ := Agreement.createXML_element hxml
  have hread : XmlText.read (textXML xml) = some element :=
    XmlText.read_bytes (createXML_spelled hplain hxml) hspells
  rw [readXML, hread]
  exact helement

/-- Whoever reads the bytes of either manifest finds the same folder and the
same forest, that of the table. -/
theorem createManifests_bytes {merged inodes : Table} (hreach : Reachable merged)
    (hsame : SameTree merged inodes) (hplainJSON : Plain plainJson inodes)
    (hplainXML : Plain plainXml inodes) {json : Printer Json.Token}
    (hjson : createJSON inodes = .ok json) :
    readJSON (textJSON json) = some (fsSlash, forestOf inodes (-1)) ∧
      ∃ xml, createXML inodes = .ok xml ∧ readXML (textXML xml) = readJSON (textJSON json) := by
  have hshape : Shape inodes := hsame.shape (reachable_shape hreach)
  obtain ⟨xml, hxml⟩ := Visits.createXML_returns hshape
  have hread := readJSON_text hplainJSON hjson
  refine ⟨hread, xml, hxml, ?_⟩
  rw [hread]
  exact readXML_text hplainXML hxml

theorem smallTable_plain {property : ℕ → Prop}
    (hletter : ∀ c, 65 ≤ c → c < 123 → c ≠ 92 → property c) :
    Plain property TarHeader.smallTable := by
  intro node hnode pair hpair
  have hall : ∀ node ∈ TarHeader.smallTable, ∀ pair ∈ shown node,
      pair.2.all XmlText.isLetter = true := by
    decide +kernel
  exact allChars_letters hletter (hall node hnode pair hpair)

theorem createManifests_bytes_smallTable :
    ∃ json, createJSON TarHeader.smallTable = .ok json ∧
      readJSON (textJSON json) = some (fsSlash, forestOf TarHeader.smallTable (-1)) ∧
      ∃ xml, createXML TarHeader.smallTable = .ok xml ∧
        readXML (textXML xml) = readJSON (textJSON json) := by
  have hreach : Reachable TarHeader.smallTable := ⟨_, TarHeader.mergeAll_smallTable⟩
  obtain ⟨json, hjson⟩ := Visits.createJSON_returns (reachable_shape hreach) (by decide +kernel)
  refine ⟨json, hjson, ?_⟩
  apply createManifests_bytes hreach (.refl _) _ _ hjson
  · exact smallTable_plain fun c hlow hhigh hne => ⟨by omega, hne, by omega⟩
  · apply smallTable_plain
    exact fun c hlow hhigh hne => ⟨by omega, by omega, by omega, by omega, by omega, by omega⟩

end Tcb.ManifestText
