import Bg3le.Library.TextSearch
import Bg3le.ModSettings.Lsx
import Bg3le.ModSettings.OrderedTheorems

/-!
# The load order is read back as it was written

A value of a `meta.lsx` has no quotation mark, so that a search in `modsettings.lsx` goes past it.
-/

namespace Bg3le
namespace ModSettings

open Pak (slice cString)
open TextSearch

variable {text needle gap rest l w value : Bytes} {at_ k : ℕ} {mod : Mod} {mods : List Mod}

/-! ## Searching -/

theorem find_of_firstAt (h : FirstAt needle text k) : Pak.find needle text = some k := by
  induction text generalizing k with
  | nil =>
    have hnil : needle = [] := by
      have hhere := h.here
      rw [List.drop_nil] at hhere
      exact List.prefix_nil.mp hhere
    have hk : k = 0 := by
      by_contra hne
      exact h.before 0 (by omega) (by rw [hnil]; exact List.nil_prefix)
    rw [Pak.find, if_pos hnil, hk]
  | cons c text ih =>
    rw [Pak.find]
    cases k with
    | zero =>
      have hhere : needle <+: c :: text := h.here
      rw [if_pos hhere]
    | succ k =>
      have hrest : FirstAt needle text k :=
        ⟨h.here, fun j hj => h.before (j + 1) (Nat.succ_lt_succ hj)⟩
      have hhead : ¬needle <+: c :: text := h.before 0 (Nat.succ_pos k)
      rw [if_neg hhead, ih hrest, Option.map_some]

theorem find_of_avoids (h : Avoids needle text []) (hne : needle ≠ []) : Pak.find needle text = none := by
  induction text with
  | nil => rw [Pak.find, if_neg hne]
  | cons c text ih =>
    have hhead := h 0 (Nat.succ_pos _)
    rw [List.drop_zero, List.append_nil] at hhead
    rw [Pak.find, if_neg hhead, ih, Option.map_none]
    intro j hj
    exact h (j + 1) (Nat.succ_lt_succ hj)

/-- A search that goes past a piece of the text, to where the needle stands. -/
theorem find_past (needle : Bytes) (htext : text.drop at_ = l ++ needle ++ w)
    (h : Avoids needle l (needle ++ w)) : find needle text at_ = some (at_ + l.length) := by
  have hfirst := h.firstAt (FirstAt.zero (List.prefix_append needle w))
  rw [find, htext, List.append_assoc, find_of_firstAt hfirst]
  rfl

theorem drop_past (htext : text.drop at_ = l ++ w) : text.drop (at_ + l.length) = w := by
  rw [← List.drop_drop, htext, List.drop_left]

/-! ## Pieces of an entry -/

/-- A value that can stand in an entry: no quotation mark, and nothing that closes the entry. -/
structure Plain (value : Bytes) : Prop where
  quote : 34 ∉ value
  close : ¬bytes "</node>" <:+: value

theorem Plain.cString (h : Plain value) : Plain (cString value) := by
  have hbegin : Pak.cString value <+: value := List.takeWhile_prefix _
  exact ⟨fun hmem => h.quote (hbegin.subset hmem), fun hin => h.close (hin.trans hbegin.isInfix)⟩

/-- What stands before a value. -/
def lead (id type : String) : Bytes :=
  bytes "                            <attribute id=\"" ++ bytes id ++ bytes "\" type=\"" ++ bytes type ++
    bytes "\" value=\""

theorem line_eq (id type : String) (value : Bytes) :
    line id type value = lead id type ++ (cString value ++ bytes "\"/>\n") := by
  simp only [line, lead, List.append_assoc]

/-- Nothing in a line closes the entry. -/
theorem avoids_close_line {id type : String} (h : Plain value)
    (hlead : ((List.range (lead id type).length).all fun j =>
      !(bytes "</node>").isPrefixOf ((lead id type).drop j) &&
        !((lead id type).drop j).isPrefixOf (bytes "</node>")) = true) (w : Bytes) :
    Avoids (bytes "</node>") (line id type value) w := by
  rw [line_eq]
  refine (avoids_of_differs hlead _).append (Avoids.append ?_ (avoids_of_differs (by decide) _))
  exact avoids_of_notMem (by decide) h.cString.close

/-- Nothing in a line is taken for that of the UUID. -/
theorem avoids_uuid_line {id type : String} (h : Plain value)
    (hlead : ((List.range (lead id type).length).all fun j =>
      !(bytes "id=\"UUID\"").isPrefixOf ((lead id type).drop j) &&
        !((lead id type).drop j).isPrefixOf (bytes "id=\"UUID\"")) = true) (w : Bytes) :
    Avoids (bytes "id=\"UUID\"") (line id type value) w := by
  rw [line_eq]
  refine (avoids_of_differs hlead _).append (Avoids.append ?_ (avoids_of_differs (by decide) _))
  have hmark : ¬bytes "UUID\"" <+: bytes "/>\n" ++ w := by
    rintro ⟨rest, hrest⟩
    exact absurd (List.cons.inj hrest).1 (by decide)
  exact avoids_of_mark (p := bytes "id=") (by decide) h.cString.quote hmark

/-- A mod whose values can stand in an entry. -/
structure Mod.Plain (mod : Mod) : Prop where
  folder : ModSettings.Plain mod.folder
  md5 : ModSettings.Plain mod.md5
  name : ModSettings.Plain mod.name
  publishHandle : ModSettings.Plain mod.publishHandle
  uuid : ModSettings.Plain mod.uuid
  version : ModSettings.Plain mod.version

def entryStart : Bytes := bytes "<node id=\"ModuleShortDesc\""

def indent : Bytes := bytes "                        "

/-- The lines before that of the UUID, with the end of the opening tag. -/
def beforeUuid (mod : Mod) : Bytes :=
  bytes ">\n" ++ line "Folder" "LSString" mod.folder ++ line "MD5" "LSString" mod.md5 ++
    line "Name" "LSString" mod.name ++ line "PublishHandle" "uint64" mod.publishHandle ++
    bytes "                            <attribute "

/-- The line of the UUID from its name to its value. -/
def uuidLead : Bytes := bytes "id=\"UUID\" type=\"guid\" "

/-- What follows the value of the UUID in an entry. -/
def afterUuid (mod : Mod) : Bytes :=
  bytes "\"/>\n" ++ line "Version64" "int64" mod.version ++ indent

theorem openEntry_eq (mod : Mod) : openEntry mod = indent ++ (entryStart ++ (beforeUuid mod ++
    (uuidLead ++ (bytes "value=\"" ++ (cString mod.uuid ++ afterUuid mod))))) := by
  have hstart : bytes "                        <node id=\"ModuleShortDesc\">\n" =
      indent ++ entryStart ++ bytes ">\n" := by decide
  have hline : lead "UUID" "guid" =
      bytes "                            <attribute " ++ uuidLead ++ bytes "value=\"" := by decide
  unfold openEntry beforeUuid afterUuid
  rw [hstart, line_eq "UUID", hline]
  simp only [List.append_assoc, indent]

theorem avoids_beforeUuid (h : mod.Plain) (w : Bytes) :
    Avoids (bytes "id=\"UUID\"") (entryStart ++ beforeUuid mod) w := by
  refine Avoids.append (avoids_of_differs (by decide) _) ?_
  unfold beforeUuid
  refine Avoids.append (Avoids.append (Avoids.append (Avoids.append (Avoids.append
    (avoids_of_differs (by decide) _) ?_) ?_) ?_) ?_) (avoids_of_differs (by decide) _)
  · exact avoids_uuid_line h.folder (by decide) _
  · exact avoids_uuid_line h.md5 (by decide) _
  · exact avoids_uuid_line h.name (by decide) _
  · exact avoids_uuid_line h.publishHandle (by decide) _

theorem avoids_close (h : mod.Plain) (w : Bytes) :
    Avoids (bytes "</node>") (entryStart ++ (beforeUuid mod ++ (uuidLead ++ (bytes "value=\"" ++
      (cString mod.uuid ++ afterUuid mod))))) w := by
  refine Avoids.append (avoids_of_differs (by decide) _) (Avoids.append ?_ (Avoids.append
    (avoids_of_differs (by decide) _) (Avoids.append (avoids_of_differs (by decide) _)
      (Avoids.append ?_ ?_))))
  · unfold beforeUuid
    refine Avoids.append (Avoids.append (Avoids.append (Avoids.append (Avoids.append
      (avoids_of_differs (by decide) _) ?_) ?_) ?_) ?_) (avoids_of_differs (by decide) _)
    · exact avoids_close_line h.folder (by decide) _
    · exact avoids_close_line h.md5 (by decide) _
    · exact avoids_close_line h.name (by decide) _
    · exact avoids_close_line h.publishHandle (by decide) _
  · exact avoids_of_notMem (by decide) h.uuid.cString.close
  · unfold afterUuid
    exact Avoids.append (Avoids.append (avoids_of_differs (by decide) _)
      (avoids_close_line h.version (by decide) _)) (avoids_of_differs (by decide) _)

/-! ## Reading an entry -/

theorem avoids_quote (h : 34 ∉ value) (w : Bytes) : Avoids (bytes "\"") value w := by
  rintro j hj ⟨rest, hrest⟩
  rw [List.drop_eq_getElem_cons hj] at hrest
  have hquote : (34 : UInt8) = value[j] := (List.cons.inj hrest).1
  exact h (hquote ▸ List.getElem_mem hj)

/-- An entry behind a gap: its UUID is read, and the search goes on where it closes. -/
theorem readEntry_written (h : mod.Plain) (hgap : ∀ w, Avoids entryStart gap w)
    (htext : text.drop at_ = gap ++ (openEntry mod ++ (bytes "</node>\n" ++ rest))) :
    readEntry text at_ =
      some (some (cString mod.uuid), at_ + gap.length + (openEntry mod).length) := by
  have hclose : bytes "</node>\n" = bytes "</node>" ++ bytes "\n" := by decide
  rw [openEntry_eq] at htext ⊢
  simp only [List.append_assoc] at htext
  have hentryAt : text.drop at_ = (gap ++ indent) ++ entryStart ++ (beforeUuid mod ++ (uuidLead ++
      (bytes "value=\"" ++ (cString mod.uuid ++ (afterUuid mod ++ (bytes "</node>\n" ++ rest)))))) := by
    rw [htext]
    simp only [List.append_assoc]
  -- each search finds what was written for it, since nothing before that holds the text
  have hentry := find_past entryStart hentryAt
    (Avoids.append (hgap _) (avoids_of_differs (by decide) _))
  have hat : text.drop (at_ + (gap ++ indent).length) = entryStart ++ (beforeUuid mod ++ (uuidLead ++
      (bytes "value=\"" ++ (cString mod.uuid ++ (afterUuid mod ++ (bytes "</node>\n" ++ rest)))))) :=
    drop_past (hentryAt.trans (List.append_assoc _ _ _))
  generalize hpos : at_ + (gap ++ indent).length = entry at hentry hat
  -- the end of the node comes behind the uuid, so the uuid is its own
  have hstop := find_past (bytes "</node>") (w := bytes "\n" ++ rest) (l := entryStart ++
      (beforeUuid mod ++ (uuidLead ++ (bytes "value=\"" ++ (cString mod.uuid ++ afterUuid mod)))))
    (by rw [hat, hclose]; simp only [List.append_assoc]) (avoids_close h _)
  have huuid := find_past (bytes "id=\"UUID\"") (l := entryStart ++ beforeUuid mod)
    (w := bytes " type=\"guid\" " ++ (bytes "value=\"" ++ (cString mod.uuid ++ (afterUuid mod ++
      (bytes "</node>\n" ++ rest)))))
    (by
      have hlead : uuidLead = bytes "id=\"UUID\"" ++ bytes " type=\"guid\" " := by decide
      rw [hat, hlead]
      simp only [List.append_assoc])
    (avoids_beforeUuid h _)
  have huuidAt : text.drop (entry + (entryStart ++ beforeUuid mod).length) = uuidLead ++
      (bytes "value=\"" ++ (cString mod.uuid ++ (afterUuid mod ++ (bytes "</node>\n" ++ rest)))) :=
    drop_past (by rw [hat, List.append_assoc])
  generalize hpos' : entry + (entryStart ++ beforeUuid mod).length = uuid at huuid huuidAt
  have hvalue := find_past (bytes "value=\"") (l := uuidLead)
    (by rw [huuidAt, List.append_assoc]) (avoids_of_differs (by decide) _)
  have hvalueAt : text.drop (uuid + uuidLead.length + 7) =
      cString mod.uuid ++ (afterUuid mod ++ (bytes "</node>\n" ++ rest)) := by
    have hdrop := drop_past huuidAt
    exact drop_past (l := bytes "value=\"") hdrop
  have hquote := find_past (bytes "\"") (l := cString mod.uuid)
    (w := bytes "/>\n" ++ (line "Version64" "int64" mod.version ++ (indent ++ (bytes "</node>\n" ++ rest))))
    (by
      have hafter : bytes "\"/>\n" = bytes "\"" ++ bytes "/>\n" := by decide
      rw [hvalueAt, afterUuid, hafter]
      simp only [List.append_assoc])
    (avoids_quote h.uuid.cString.quote _)
  have hbefore : ¬entry + (entryStart ++ (beforeUuid mod ++ (uuidLead ++ (bytes "value=\"" ++
      (cString mod.uuid ++ afterUuid mod))))).length < uuid := by
    rw [← hpos']
    simp only [List.length_append]
    omega
  have hslice : slice text (uuid + uuidLead.length + 7)
      (uuid + uuidLead.length + 7 + (cString mod.uuid).length - (uuid + uuidLead.length + 7)) =
        cString mod.uuid := by
    rw [Nat.add_sub_cancel_left, slice, hvalueAt, List.take_left]
  -- now the reader itself, search by search
  unfold readEntry
  rw [show bytes "<node id=\"ModuleShortDesc\"" = entryStart from rfl, hentry]
  simp only
  rw [huuid, hstop]
  simp only [Option.any_some, decide_eq_true_eq]
  rw [if_neg hbefore, hvalue]
  simp only
  rw [hquote]
  simp only
  have hnext : entry + (entryStart ++ (beforeUuid mod ++ (uuidLead ++ (bytes "value=\"" ++
      (cString mod.uuid ++ afterUuid mod))))).length = at_ + gap.length + (indent ++ (entryStart ++
        (beforeUuid mod ++ (uuidLead ++ (bytes "value=\"" ++ (cString mod.uuid ++
          afterUuid mod)))))).length := by
    rw [← hpos, List.length_append, @List.length_append _ indent]
    omega
  rw [hslice, Option.getD_some, hnext]

/-- All entries behind a gap are read, in their order. -/
theorem readFrom_written {rounds : ℕ} (hmods : ∀ mod ∈ mods, mod.Plain)
    (hgap : ∀ w, Avoids entryStart gap w)
    (htext : text.drop at_ = gap ++ (mods.flatMap writeEntry ++ footer)) (hrounds : mods.length < rounds) :
    readFrom text rounds at_ = mods.map fun mod => cString mod.uuid := by
  induction mods generalizing gap at_ rounds with
  | nil =>
    obtain ⟨rounds, rfl⟩ := Nat.exists_eq_add_of_lt hrounds
    have hnone : find entryStart text at_ = none := by
      have havoids : Avoids entryStart (gap ++ footer) [] :=
        Avoids.append (hgap _) (avoids_of_differs (by decide +kernel) _)
      rw [find, htext, List.flatMap_nil, List.nil_append, find_of_avoids havoids (by decide),
        Option.map_none]
    have hentry : readEntry text at_ = none := by
      unfold readEntry
      rw [show bytes "<node id=\"ModuleShortDesc\"" = entryStart from rfl, hnone]
    rw [readFrom, hentry]
    rfl
  | cons mod mods ih =>
    obtain ⟨rounds, rfl⟩ := Nat.exists_eq_add_of_lt hrounds
    have hsplit : text.drop at_ =
        gap ++ (openEntry mod ++ (bytes "</node>\n" ++ (mods.flatMap writeEntry ++ footer))) := by
      rw [htext, List.flatMap_cons, writeEntry]
      simp only [List.append_assoc]
    have hentry := readEntry_written (hmods mod List.mem_cons_self) hgap hsplit
    have hnext : text.drop (at_ + gap.length + (openEntry mod).length) =
        bytes "</node>\n" ++ (mods.flatMap writeEntry ++ footer) := drop_past (drop_past hsplit)
    have hrest := @ih (bytes "</node>\n") _ ((mod :: mods).length + rounds)
      (fun mod hmod => hmods mod (List.mem_cons_of_mem _ hmod))
      (fun w => avoids_of_differs (by decide) w) hnext (by simp only [List.length_cons]; omega)
    rw [readFrom, hentry]
    simp only
    rw [hrest]
    rfl

theorem length_lt_writeEntry (mod : Mod) : 0 < (writeEntry mod).length := by
  rw [writeEntry, List.length_append]
  exact Nat.lt_of_lt_of_le (by decide) (Nat.le_add_left (bytes "</node>\n").length _)

theorem length_le_flatMap (mods : List Mod) : mods.length ≤ (mods.flatMap writeEntry).length := by
  induction mods with
  | nil => exact Nat.le_refl 0
  | cons mod mods ih =>
    have hpos := length_lt_writeEntry mod
    rw [List.flatMap_cons, List.length_append, List.length_cons]
    omega

/-- The UUIDs of an order are read back, behind that of the campaign. -/
theorem modSettingsOrder_writeSettings (hmods : ∀ mod ∈ mods, mod.Plain) :
    modSettingsOrder (writeSettings mods) =
      campaign.uuid :: mods.map fun mod => cString mod.uuid := by
  have hcampaign : campaign.Plain := by
    constructor <;> constructor <;> decide
  have hall : ∀ mod ∈ campaign :: mods, mod.Plain := by
    intro mod hmod
    rcases List.mem_cons.mp hmod with rfl | hmod
    · exact hcampaign
    · exact hmods mod hmod
  have hlength : (campaign :: mods).length < (writeSettings mods).length + 1 := by
    have hle := length_le_flatMap (campaign :: mods)
    unfold writeSettings
    rw [List.length_append, List.length_append]
    omega
  have htext : (writeSettings mods).drop 0 =
      header ++ ((campaign :: mods).flatMap writeEntry ++ footer) := by
    rw [List.drop_zero, writeSettings, List.append_assoc]
  exact readFrom_written hall (fun w => avoids_of_differs (by decide +kernel) w) htext hlength

/-! ## Values of a `meta.lsx` -/

theorem notMem_take_find (h : Pak.find (bytes "\"") text = some k) : 34 ∉ text.take k := by
  induction text generalizing k with
  | nil =>
    rw [List.take_nil]
    exact List.not_mem_nil
  | cons c text ih =>
    rw [Pak.find] at h
    split at h
    · obtain rfl := Option.some.inj h
      rw [List.take_zero]
      exact List.not_mem_nil
    · next hhead =>
      obtain ⟨k, hk, rfl⟩ := Option.map_eq_some_iff.mp h
      rw [List.take_succ_cons, List.mem_cons, not_or]
      refine ⟨?_, ih hk⟩
      rintro rfl
      exact hhead ⟨text, rfl⟩

/-- A value that is read has no quotation mark. -/
theorem quote_notMem_attributeAt (h : attributeAt text at_ = some value) : 34 ∉ value := by
  unfold attributeAt at h
  split at h
  · cases h
  · split at h
    · cases h
    · split at h
      · next start stop hstart hstop =>
        split at h
        · cases h
        · obtain rfl := Option.some.inj h
          split
          · exact List.not_mem_nil
          · next to_ hto =>
            obtain ⟨k, hk, rfl⟩ := Option.map_eq_some_iff.mp hto
            rw [Nat.add_sub_cancel_left, slice]
            exact notMem_take_find hk
      · cases h

theorem quote_notMem_attributeFrom (rounds : ℕ) : 34 ∉ attributeFrom text needle rounds at_ := by
  induction rounds generalizing at_ with
  | zero => exact List.not_mem_nil
  | succ rounds ih =>
    rw [attributeFrom]
    split
    · exact List.not_mem_nil
    · next found hfound =>
      cases hvalue : attributeAt text found with
      | none => exact ih
      | some value => exact quote_notMem_attributeAt hvalue

theorem quote_notMem_attributeValue (block : Bytes) (id : String) : 34 ∉ attributeValue block id :=
  quote_notMem_attributeFrom _

theorem quote_notMem_orElse {other : Bytes} (h : 34 ∉ value) (hother : 34 ∉ other) :
    34 ∉ orElse value other := by
  unfold orElse
  split
  · exact hother
  · exact h

/-- The values of an entry. -/
def Mod.values (mod : Mod) : List Bytes :=
  [mod.folder, mod.md5, mod.name, mod.publishHandle, mod.uuid, mod.version]

theorem quote_notMem_parseMeta (h : parseMeta text = some mod) : ∀ value ∈ mod.values, 34 ∉ value := by
  unfold parseMeta at h
  simp only at h
  split at h
  · cases h
  · split at h
    · cases h
    · obtain rfl := Option.some.inj h
      intro value hvalue
      simp only [Mod.values, List.mem_cons, List.not_mem_nil, or_false] at hvalue
      have hattribute := quote_notMem_attributeValue (node text "ModuleInfo")
      rcases hvalue with rfl | rfl | rfl | rfl | rfl | rfl
      · exact hattribute _
      · exact List.not_mem_nil
      · exact quote_notMem_orElse (hattribute _) (hattribute _)
      · exact quote_notMem_orElse (hattribute _) (by decide)
      · exact hattribute _
      · exact quote_notMem_orElse (quote_notMem_orElse (hattribute _) (hattribute _)) (by decide)

/-! ## The whole order -/

/-- What is placed is among the mods. -/
theorem place_subset {deref : Bytes → Option Mod} (hderef : ∀ need m, deref need = some m → m ∈ mods)
    (fuel : ℕ) {st : Placement} (hmod : mod ∈ mods) (hst : ∀ m ∈ st.out, m ∈ mods) :
    ∀ m ∈ (place deref fuel mod st).out, m ∈ mods := by
  induction fuel generalizing mod st with
  | zero => exact hst
  | succ fuel ih =>
    rw [place]
    split
    · exact hst
    · split
      · exact hst
      · simp only
        generalize hplaced : List.foldl _ _ mod.needs = placed
        have hneeds : ∀ m ∈ placed.out, m ∈ mods := by
          rw [← hplaced]
          apply List.foldlRecOn (motive := fun st : Placement => ∀ m ∈ st.out, m ∈ mods)
          · exact hst
          · intro st hst need _
            cases hdep : deref need with
            | none => exact hst
            | some dep => exact ih (hderef need dep hdep) hst
        split
        · exact hneeds
        · intro m hm
          rcases List.mem_append.mp hm with hm | hm
          · exact hneeds m hm
          · rw [List.mem_singleton.mp hm]
            exact hmod

theorem ordered_subset (std : StdSort) (mods : List Mod) : ∀ m ∈ ordered std mods, m ∈ mods := by
  have hsorted {m : Mod} (hm : m ∈ std.sort mods) : m ∈ mods := (std.perm mods).mem_iff.mp hm
  unfold ordered
  apply List.foldlRecOn (motive := fun st : Placement => ∀ m ∈ st.out, m ∈ mods)
  · exact nofun
  · exact fun st hst mod hmod =>
      place_subset (fun need m h => hsorted (mem_of_deref h)) _ (hsorted hmod) hst

/-- The order that the tool writes for the mods it has read is the one that is read back, behind the
campaign, if no value closes an entry. -/
theorem modSettingsOrder_ordered (std : StdSort)
    (hmods : ∀ mod ∈ mods, ∃ text, parseMeta text = some { mod with pak := [] })
    (hclose : ∀ mod ∈ mods, ∀ value ∈ mod.values, ¬bytes "</node>" <:+: value) :
    modSettingsOrder (writeSettings (ordered std mods)) =
      campaign.uuid :: (ordered std mods).map fun mod => cString mod.uuid := by
  refine modSettingsOrder_writeSettings fun mod hmod => ?_
  have hmem := ordered_subset std mods mod hmod
  obtain ⟨text, htext⟩ := hmods mod hmem
  have hquote : ∀ value ∈ mod.values, 34 ∉ value :=
    @quote_notMem_parseMeta _ { mod with pak := [] } htext
  have hplain : ∀ value ∈ mod.values, Plain value := fun value hvalue =>
    ⟨hquote value hvalue, hclose mod hmem value hvalue⟩
  exact ⟨hplain _ (by simp [Mod.values]), hplain _ (by simp [Mod.values]), hplain _ (by simp [Mod.values]),
    hplain _ (by simp [Mod.values]), hplain _ (by simp [Mod.values]), hplain _ (by simp [Mod.values])⟩

/-- The metadata of a mod that needs another one. -/
def metaOf (name needs : String) : Bytes :=
  bytes "<node id=\"Dependencies\"><children><node id=\"ModuleShortDesc\"><attribute id=\"UUID\" value=\""
    ++ bytes needs ++ bytes "\"/></node></children></node><node id=\"ModuleInfo\"><attribute id=\"Folder\" "
    ++ bytes "value=\"" ++ bytes name ++ bytes "\"/><attribute id=\"UUID\" value=\"" ++ bytes name
    ++ bytes "\"/></node>"

/-- The mod that this metadata is of. -/
def metaMod (name : String) (needs : List Bytes) : Mod where
  uuid := bytes name
  name := bytes name
  folder := bytes name
  version := bytes "36028797018963968"
  publishHandle := bytes "0"
  needs := needs
  pak := bytes "x.pak"

/-- The mod that is needed comes first. -/
theorem modSettingsOrder_ordered_two :
    modSettingsOrder (writeSettings (ordered insertionByName
      [metaMod "a" [bytes "b"], metaMod "b" []])) = [campaign.uuid, bytes "b", bytes "a"] := by
  have ha : parseMeta (metaOf "a" "b") = some { metaMod "a" [bytes "b"] with pak := [] } := by
    decide +kernel
  have hb : parseMeta (metaOf "b" "") = some { metaMod "b" [] with pak := [] } := by decide +kernel
  have horder : (ordered insertionByName [metaMod "a" [bytes "b"], metaMod "b" []]).map
      (fun mod => cString mod.uuid) = [bytes "b", bytes "a"] := by decide +kernel
  rw [@modSettingsOrder_ordered [metaMod "a" [bytes "b"], metaMod "b" []] insertionByName
    (by simp only [List.forall_mem_cons]; exact ⟨⟨_, ha⟩, ⟨_, hb⟩, nofun⟩) (by decide +kernel), horder]

end ModSettings
end Bg3le
