import WorkspaceRelease.Proofs.Manifest.Forms
import WorkspaceRelease.Proofs.Manifest.Places
import WorkspaceRelease.Proofs.Stamping.Texts
import WorkspaceRelease.Proofs.Toml.Occurrence

/-!
A version appended between braces. The fields before it stay as they were written, and it takes over the text before
the brace unless the last key is a dotted one.
-/

namespace WorkspaceRelease

open Toml

namespace Stamp

section Fields

variable {v : Node} {closing : Text}

theorem appendVersion_concat (version : Text) (es : List Entry) (k : Key) (n : Node) :
    appendVersion version (es ++ [(k, n)]) = es ++ [(k, n.withPad { n.pad with after := some [] })] ++
      [(Key.ofName versionKey, versionString version { after := n.pad.after })] := by
  simp [appendVersion]

theorem renderFields_version (version : Text) (after : Option Text) :
    renderFields [] true [(Key.ofName versionKey, versionString version { after })] =
      [" version = ".toList ++ encodeString version ++ after.getD [' ']] := by
  cases after <;> rfl

/-- A last value hands the text behind it on to the version. -/
theorem renderFields_appendVersion_value (es : List Entry) (k : Key) {n : Node} (hclosing : n.pad.after = some closing)
    (version : Text) : renderFields [] true (appendVersion version (es ++ [(k, n)])) =
      renderFields [] false es ++ [fieldLead [k] n] ++ [" version = ".toList ++ encodeString version ++ closing] := by
  have hpad := Node.pad_withPad (Node.isValue_of_after hclosing) { n.pad with after := some [] }
  have hafter : (n.withPad { n.pad with after := some [] }).pad.after = some [] := congrArg Padding.after hpad
  have hlead : fieldLead [k] (n.withPad { n.pad with after := some [] }) = fieldLead [k] n := by
    rw [fieldLead, fieldLead, hpad, Node.text_withPad]
  have hfield := renderFields_singleton hafter [] k false
  rw [List.nil_append, hlead, List.append_nil] at hfield
  rw [appendVersion_concat, renderFields_append, renderFields_append, renderFields_version, hclosing,
    List.isEmpty_cons, Bool.and_false, Bool.false_and, hfield, Option.getD_some]

/-- A last table by dotted keys keeps the text behind its last value, and the version gets a space of its own. -/
theorem renderFields_appendVersion_dotted (es : List Entry) (k : Key) {n : Node} (hdotted : n.isInlineDotted = true)
    (version : Text) : renderFields [] true (appendVersion version (es ++ [(k, n)])) =
      renderFields [] false (es ++ [(k, n)]) ++ [" version = ".toList ++ encodeString version ++ [' ']] := by
  obtain ⟨fs, rfl⟩ := n.eq_of_isInlineDotted hdotted
  have hafter : (Node.table .inlineDotted fs).pad.after = none := rfl
  rw [appendVersion_concat, renderFields_append, renderFields_version, hafter, List.isEmpty_cons, Bool.and_false,
    Option.getD_none]
  rfl

/-- The text between the braces, and what it becomes when a version is appended. -/
theorem text_appendVersion {es : List Entry} (h : Closed es v closing) (preamble : Text) (pad : Padding)
    (version : Text) : ∃ k last body, es.getLast? = some (k, last) ∧ v.text <:+ body ∧
      (Node.table (.inline preamble pad) es).text = '\x7b' :: body ++ closing ++ ['\x7d'] ∧
      (last.isInlineDotted = false → (Node.table (.inline preamble pad) (appendVersion version es)).text =
        '\x7b' :: body ++ ", version = ".toList ++ encodeString version ++ closing ++ ['\x7d']) ∧
      (last.isInlineDotted = true → (Node.table (.inline preamble pad) (appendVersion version es)).text =
        '\x7b' :: body ++ closing ++ ", version = ".toList ++ encodeString version ++ [' ', '\x7d']) := by
  obtain ⟨front, final, hfinal, hrender⟩ := exists_renderFields h.stored [] es h.last
  have hne : es ≠ [] := by
    rintro rfl
    simpa [lastValue?] using h.last
  obtain ⟨init, ⟨k, n⟩, rfl⟩ := (List.eq_nil_or_concat' es).resolve_left hne
  have hsuffix : final <:+ Text.joinWith [','] (front ++ [final]) :=
    ⟨_, (Text.joinWith_concat [','] front [] final).symm⟩
  have hbody : Text.joinWith [','] (front ++ [final ++ closing]) = Text.joinWith [','] (front ++ [final]) ++ closing :=
    Text.joinWith_concat [','] front final closing
  refine ⟨k, n, preamble ++ Text.joinWith [','] (front ++ [final]), List.getLast?_concat, ?_, ?_, ?_, ?_⟩
  · exact (hfinal.trans hsuffix).trans (List.suffix_append _ _)
  · rw [text_braces, hrender, hbody]
    simp only [List.cons_append, List.append_assoc]
  · intro hdotted
    obtain rfl : n = v := Option.some.inj
      ((Node.lastValue?_eq_self hdotted).symm.trans ((lastValue?_concat init k n).symm.trans h.last))
    have hfields := hrender true
    rw [renderFields_append, renderFields_singleton h.stored, List.isEmpty_cons, Bool.and_false] at hfields
    obtain ⟨hfront, hlast⟩ := List.append_inj' hfields rfl
    have hlead : fieldLead [k] n = final := List.append_cancel_right (List.singleton_inj.mp hlast)
    rw [text_braces, renderFields_appendVersion_value init k h.stored, hfront, hlead,
      Text.joinWith_append [','] (by simp) (by simp)]
    simp [Text.joinWith]
  · intro hdotted
    rw [text_braces, renderFields_appendVersion_dotted init k hdotted, hrender,
      Text.joinWith_append [','] (by simp) (by simp), hbody]
    simp [Text.joinWith]

end Fields

section Places

variable {family : Text → Option Text} {lead table : Text} {p : Place}

theorem at?_mapEntries (f : Text → Node → Node) (n : Node) (name : Text) (path : List Step) :
    (n.mapEntries (List.map fun e => (e.1, f e.1.name e.2))).at? (.key name :: path) =
      (n.get? name).bind fun m => (f name m).at? path := by
  have hget : (n.mapEntries (List.map fun e => (e.1, f e.1.name e.2))).get? name = (n.get? name).map (f name) := by
    cases n with
    | table form es => exact find?_map f name es
    | scalar | array | tables => rfl
  rw [Node.at?_key_cons, hget, Option.bind_map]
  rfl

theorem at?_carryTable (n : Node) (name : Text) : (n.mapEntries (carryTable family)).at? [.key name] =
    (n.at? [.key name]).map (carryRequirement (family name)) := by
  refine (at?_mapEntries (fun name => carryRequirement (family name)) n name []).trans ?_
  rw [Node.at?_key]
  cases n.get? name <;> rfl

theorem at?_carrySections (h : table ∈ dependencySections) (n : Node) (name : Text) :
    (n.mapEntries (carrySections family)).at? [.key table, .key name] =
      (n.at? [.key table, .key name]).map (carryRequirement (family name)) := by
  refine (at?_mapEntries (fun table n =>
    if dependencySections.contains table then n.mapEntries (carryTable family) else n) n table _).trans ?_
  rw [Node.at?_key_cons, List.contains_iff_mem.mpr h]
  cases n.get? table with
  | none => rfl
  | some m => exact at?_carryTable m name

theorem at?_carryFamily (hp : p.table ∈ dependencySections) (form : TableForm) (es : List Entry) :
    (Node.table form (carryFamily family es)).at? p.path =
      ((Node.table form es).at? p.path).map (carryRequirement (family p.name)) := by
  obtain ⟨target?, table, name⟩ := p
  have hroot := at?_mapEntries (carryRoot family) (.table form es)
  cases target? with
  | none =>
    refine (hroot table [.key name]).trans ?_
    rw [Place.path, Option.elim_none, List.nil_append, Node.at?_key_cons]
    cases (Node.table form es).get? table with
    | none => rfl
    | some n =>
      rw [Option.bind_some, Option.bind_some, carryRoot, if_pos (List.contains_iff_mem.mpr hp)]
      exact at?_carryTable n name
  | some target =>
    refine (hroot "target".toList [.key target, .key table, .key name]).trans ?_
    rw [Place.path, Option.elim_some, List.cons_append, List.cons_append, List.nil_append, Node.at?_key_cons]
    cases (Node.table form es).get? "target".toList with
    | none => rfl
    | some ts =>
      rw [Option.bind_some, Option.bind_some, carryRoot, if_neg (by decide), if_pos rfl]
      refine (at?_mapEntries (fun _ t => t.mapEntries (carrySections family)) ts target _).trans ?_
      rw [Node.at?_key_cons]
      cases ts.get? target with
      | none => rfl
      | some t => exact at?_carrySections hp t name

theorem at?_stampFamily (hp : p.Covered lead) (version : Text) (form : TableForm) (es : List Entry) :
    (Node.table form (stampFamily lead version es)).at? p.path =
      ((Node.table form es).at? p.path).map (stampRequirement version) := by
  have hname : lead.isPrefixOf p.name = true := List.isPrefixOf_iff_prefix.mpr hp.name
  rw [stampFamily_eq_carryFamily, at?_carryFamily hp.table, if_pos hname]
  rfl

theorem Place.path_eq_map (p : Place) :
    p.path = ((p.target?.elim [] fun target => ["target".toList, target]) ++ [p.table, p.name]).map .key := by
  obtain ⟨target?, table, name⟩ := p
  cases target? <;> rfl

end Places

end Stamp

namespace Manifest

open Stamp

variable {t lead preamble : Text} {m : Manifest} {p : Place} {pad : Padding} {es : List Entry}

/-- A manifest has a node at a place, and in its text the text of that node. -/
structure Shows (m : Manifest) (p : Place) (n : Node) (t : Text) : Prop where
  node : m.document.root.at? p.path = some n
  text : n.text = t
  standing : t <:+: m.render

theorem shows_value (hfits : entriesFit .entry m.document.entries) {n : Node} (hvalue : n.isValue = true)
    (hat : m.document.root.at? p.path = some n) (ht : n.text = t) : m.Shows p n t := by
  refine ⟨hat, ht, ?_⟩
  rw [Place.path_eq_map] at hat
  exact ht ▸ infix_document hfits hat hvalue

/-- A requirement in braces without a version gets it as its last field. The fields before it stay, and the text before
the brace goes behind the version unless the last key is a dotted one. -/
theorem setFamilyVersions_appends (hread : Document.read t = .ok m.document) (hp : p.Covered lead)
    (hat : m.document.root.at? p.path = some (.table (.inline preamble pad) es)) (hne : es ≠ [])
    (hown : inherits es = false) (hnew : Entries.find? versionKey es = none) (version : Text) :
    ∃ k last v body closing, es.getLast? = some (k, last) ∧ Closed es v closing ∧ v.text <:+ body ∧
      m.Shows p (.table (.inline preamble pad) es) ('\x7b' :: body ++ closing ++ ['\x7d']) ∧
      ∃ fs, (last.isInlineDotted = false →
          (m.setFamilyVersions lead version).Shows p (.table (.inline preamble pad) fs)
            ('\x7b' :: body ++ ", version = ".toList ++ encodeString version ++ closing ++ ['\x7d'])) ∧
        (last.isInlineDotted = true →
          (m.setFamilyVersions lead version).Shows p (.table (.inline preamble pad) fs)
            ('\x7b' :: body ++ closing ++ ", version = ".toList ++ encodeString version ++ [' ', '\x7d'])) := by
  have hsealed : (Node.table (.inline preamble pad) es).Sealed := by
    rw [Place.path_eq_map] at hat
    exact (sealed_read hread).at_keys hat
  obtain ⟨v, closing, hclosed⟩ := hsealed.1.resolve_left hne
  obtain ⟨k, last, body, hlast, hbody, htext, hvalue, hdotted⟩ := text_appendVersion hclosed preamble pad version
  have hstamped : stampRequirement version (.table (.inline preamble pad) es) =
      .table (.inline preamble pad) (appendVersion version es) := by
    simp only [stampRequirement, hown, Bool.false_eq_true, ↓reduceIte, setTableVersion, setInlineVersion, hnew]
  have hat' : (m.setFamilyVersions lead version).document.root.at? p.path =
      some (.table (.inline preamble pad) (appendVersion version es)) := by
    rw [← hstamped]
    exact (at?_stampFamily hp version .implicit m.document.entries).trans (congrArg (Option.map _) hat)
  have hfits := fits_read hread
  have hfits' : entriesFit .entry (m.setFamilyVersions lead version).document.entries :=
    entriesFit_stampFamily lead version hfits
  refine ⟨k, last, v, body, closing, hlast, hclosed, hbody, shows_value hfits rfl hat htext, appendVersion version es,
    fun h => ?_, fun h => ?_⟩
  · exact shows_value hfits' rfl hat' (hvalue h)
  · exact shows_value hfits' rfl hat' (hdotted h)

/-- Keys of every kind and values that nest, with blank space of its own at each place. -/
def nestedManifest : Text :=
  ("[target.'cfg(unix)'.dependencies]\nena-b = " ++
    "\x7b  a.\"x y\".c = [ 1, \x7b v.w=2 \x7d ] ,'path' = \"b\"\t, f=[\"q\"]\t \x7d # c\n").toList

def nestedFields : List Entry :=
  let dotted (k : Key) (es : List Entry) : Entry := (k, .table .inlineDotted es)
  let braces : Node := bracedNode [' ']
    [dotted (Key.ofName ['v']) [(spacedKey "w" [' '] [], spacedNode (.integer 2) ['2'] [] [' '])]]
  let items : Node := .array [spacedNode (.integer 1) ['1'] [' '] [], braces] false [] ⟨some [' '], some [' ']⟩
  [dotted (Key.ofName ['a'])
      [dotted { name := "x y".toList, written := "\"x y\"".toList } [(spacedKey "c" [' ', ' '] [' '], items)]],
    ({ bareKey "path" [' '] with written := "'path'".toList }, quotedNode ['b'] [' '] ['\t']),
    (spacedKey "f" [' '] [], .array [quotedNode ['q'] [] []] false [] ⟨some [], some ['\t', ' ']⟩)]

def nestedDocument : Document :=
  let platform : Key := { name := "cfg(unix)".toList, written := "'cfg(unix)'".toList }
  ⟨[implicitEntry "target" [(platform, .table .implicit
    [bareHeader 1 "dependencies" [(bareKey "ena-b" [' '], bracedNode " # c".toList nestedFields)]])]], []⟩

def nestedPlace : Place := ⟨some "cfg(unix)".toList, "dependencies".toList, "ena-b".toList⟩

set_option maxRecDepth 10000 in
theorem setFamilyVersions_appends_nested :
    let m : Manifest := ⟨manifestFile, nestedManifest, nestedDocument⟩
    let pad : Padding := ⟨some [' '], some " # c".toList⟩
    Document.read nestedManifest = .ok nestedDocument ∧ m.render = nestedManifest ∧
      (m.setFamilyVersions "ena".toList ['1']).render = ("[target.'cfg(unix)'.dependencies]\nena-b = \x7b" ++
        "  a.\"x y\".c = [ 1, \x7b v.w=2 \x7d ] ,'path' = \"b\"\t, f=[\"q\"], version = \"1\"\t \x7d # c\n").toList ∧
      nestedPlace.Covered "ena".toList ∧
      m.document.root.at? nestedPlace.path = some (.table (.inline [] pad) nestedFields) ∧ nestedFields ≠ [] ∧
      inherits nestedFields = false ∧ Entries.find? versionKey nestedFields = none ∧
      ∃ k last v body closing, nestedFields.getLast? = some (k, last) ∧ Closed nestedFields v closing ∧
        v.text <:+ body ∧
        m.Shows nestedPlace (.table (.inline [] pad) nestedFields) ('\x7b' :: body ++ closing ++ ['\x7d']) ∧
        ∃ fs, (last.isInlineDotted = false →
            (m.setFamilyVersions "ena".toList ['1']).Shows nestedPlace (.table (.inline [] pad) fs)
              ('\x7b' :: body ++ ", version = ".toList ++ encodeString ['1'] ++ closing ++ ['\x7d'])) ∧
          (last.isInlineDotted = true →
            (m.setFamilyVersions "ena".toList ['1']).Shows nestedPlace (.table (.inline [] pad) fs)
              ('\x7b' :: body ++ closing ++ ", version = ".toList ++ encodeString ['1'] ++ [' ', '\x7d'])) := by
  have hread : Document.read nestedManifest = .ok nestedDocument := rfl
  have hp : nestedPlace.Covered "ena".toList := ⟨by decide, by decide⟩
  have hat : nestedDocument.root.at? nestedPlace.path =
      some (.table (.inline [] ⟨some [' '], some " # c".toList⟩) nestedFields) := rfl
  refine ⟨hread, by decide +kernel, by decide +kernel, hp, hat, by simp [nestedFields], rfl, rfl, ?_⟩
  exact setFamilyVersions_appends (m := ⟨manifestFile, nestedManifest, nestedDocument⟩) hread hp hat
    (by simp [nestedFields]) rfl rfl ['1']

/-- Braces that end in a dotted key. -/
def openEndManifest : Text :=
  "[dependencies]\nena-b = \x7b path = \"b\", default.features = true \x7d\n".toList

def openEndDocument : Document :=
  let default : Entry :=
    (Key.ofName "default".toList, .table .inlineDotted [(spacedKey "features" [' '] [' '], trueNode [' '])])
  ⟨[bareHeader 1 "dependencies"
    [(bareKey "ena-b" [' '], bracedNode [] [(spacedKey "path" [' '] [' '], quotedNode ['b'] [' '] []), default])]], []⟩

set_option maxRecDepth 10000 in
theorem setFamilyVersions_leavesPadding :
    let m : Manifest := ⟨manifestFile, openEndManifest, openEndDocument⟩
    Document.read openEndManifest = .ok openEndDocument ∧ m.render = openEndManifest ∧
      (m.setFamilyVersions "ena".toList ['1']).render =
        "[dependencies]\nena-b = \x7b path = \"b\", default.features = true , version = \"1\" \x7d\n".toList ∧
      (m.setFamilyVersions "ena".toList ['1']).render ≠
        "[dependencies]\nena-b = \x7b path = \"b\", default.features = true, version = \"1\" \x7d\n".toList :=
  ⟨rfl, by decide +kernel, by decide +kernel, by decide +kernel⟩

end Manifest

end WorkspaceRelease
