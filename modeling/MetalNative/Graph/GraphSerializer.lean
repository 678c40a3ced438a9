import MetalNative.Core.Error
import MetalNative.Lib.TextSearch

namespace MetalNative

open TextSearch

/-!
# The metadata of a cached graph

`write_metadata`, `read_metadata` and the comparison of `validate_cache_entry` in
`graph_serializer.mm`.  A version is written between quotes as it is, and read up to the next quote.

* `metadataText`, `writeMetadata`, `readMetadata` — the functions; a file is its text.
* `readMetadata_text` — what is read back when the first version has no quote.
* `metadata_round_trip_iff` — exactly which pairs are read back, and `validate_iff` — what that means
  for the check of a cached file.
-/

open TextSearch (beforeMark extract find firstAt)

/-- The characters of a `std::string`. -/
abbrev Text := List Char

/-- `CacheMetadata`. -/
structure CacheMetadata where
  macos_version : Text
  metal_driver_version : Text
  deriving DecidableEq, Repr

/-! ### Writing and reading -/

/-- What is written for some metadata. -/
def metadataText (m : CacheMetadata) : Text :=
  "\x7b\n".toList ++
  ("  \"macos_version\": \"".toList ++ m.macos_version ++ "\",\n".toList) ++
  ("  \"metal_driver_version\": \"".toList ++ m.metal_driver_version ++ "\"\n".toList) ++
  "\x7d\n".toList

/-- `write_metadata`, the text of the file. -/
def writeMetadata (path : String) (opens : Bool) (m : CacheMetadata) : Except MNException Text :=
  if opens then .ok (metadataText m)
  else .error ⟨.InternalError,
    "GraphSerializer: failed to open metadata file for writing: " ++ path⟩

/-- `read_metadata`; there is no text when the file cannot be opened.  The value of a key is looked
    for one character behind the colon. -/
def readMetadata (file : Option Text) : Option CacheMetadata := do
  let content ← file
  let macos_pos ← find content "\"macos_version\"".toList 0
  let metal_pos ← find content "\"metal_driver_version\"".toList 0
  let macos_version ← extract '"' content (macos_pos + 16)
  let metal_driver_version ← extract '"' content (metal_pos + 23)
  return ⟨macos_version, metal_driver_version⟩

/-- The comparison of `validate_cache_entry` with the current system, for a package that exists and a
    device. -/
def validate (file : Option Text) (current : CacheMetadata) : Bool :=
  match readMetadata file with
  | none => false
  | some stored =>
    stored.macos_version = current.macos_version &&
      stored.metal_driver_version = current.metal_driver_version

/-! ### What is read back -/

/-- The name of the second field. -/
def metalWord : Text := "metal_driver_version".toList

section Text

variable (M D : Text)

/-- The text up to the first version. -/
theorem metadataText_macos : metadataText ⟨M, D⟩
    = "\x7b\n  \"macos_version\":".toList ++ " ".toList ++ '"' :: (M ++ '"' ::
      (",\n  \"metal_driver_version\": \"".toList ++ D ++ "\"\n\x7d\n".toList)) := by
  simp [metadataText]

/-- The text up to the second version. -/
theorem metadataText_metal : metadataText ⟨M, D⟩
    = ("\x7b\n  \"macos_version\": \"".toList ++ M ++ "\",\n  \"metal_driver_version\":".toList)
      ++ " ".toList ++ '"' :: (D ++ '"' :: "\n\x7d\n".toList) := by
  simp [metadataText]

/-- The text up to the key of the second version, where the first one is the name of that key. -/
theorem metadataText_metalWord : metadataText ⟨metalWord, D⟩
    = "\x7b\n  \"macos_version\": \"metal_driver_version\",".toList ++ "\n  ".toList ++
      '"' :: (metalWord ++ '"' :: (": \"".toList ++ D ++ "\"\n\x7d\n".toList)) := by
  simp only [metadataText, List.append_assoc]
  rfl

/-- The parts of the text between quotes. -/
theorem metadataText_parts : metadataText ⟨M, D⟩
    = "\x7b\n  ".toList ++ '"' :: ("macos_version".toList ++ '"' :: (": ".toList ++ '"' :: (M ++
      '"' :: (",\n  ".toList ++ '"' :: (metalWord ++ '"' ::
        (": \"".toList ++ D ++ "\"\n\x7d\n".toList)))))) := by
  simp only [metadataText, List.append_assoc]
  rfl

theorem find_macos : find (metadataText ⟨M, D⟩) "\"macos_version\"".toList 0 = some 4 := by
  have hkey : "\"macos_version\"".toList = '"' :: ("macos_version".toList ++ ['"']) := rfl
  rw [hkey, find_zero, metadataText_parts, firstAt_append (by decide),
    firstAt_marked (by decide) (by decide), if_pos rfl]
  rfl

/-- The key of the second version is found in its place, or in the first version. -/
theorem find_metal (hM : '"' ∉ M) : find (metadataText ⟨M, D⟩) "\"metal_driver_version\"".toList 0
    = some (if M = metalWord then 21 else 27 + M.length) := by
  have hkey : "\"metal_driver_version\"".toList = '"' :: (metalWord ++ ['"']) := rfl
  have hword : '"' ∉ metalWord := by decide
  rw [hkey, find_zero, metadataText_parts, firstAt_append (by decide),
    firstAt_marked hword (by decide), if_neg (by decide),
    firstAt_marked hword (by decide), if_neg (by decide),
    firstAt_marked hword hM]
  split_ifs with hsame
  · rfl
  · rw [firstAt_marked hword (by decide), if_neg (by decide),
      firstAt_marked hword hword, if_pos rfl]
    simp only [Option.map_some, Option.some.injEq]
    have hseparator : (",\n  ".toList).length = 4 := by decide
    have hgap : (": ".toList).length = 2 := by decide
    have hname : ("macos_version".toList).length = 13 := by decide
    have hbegin : ("\x7b\n  ".toList).length = 4 := by decide
    rw [hseparator, hgap, hname, hbegin]
    omega

theorem extract_macos : extract '"' (metadataText ⟨M, D⟩) 20 = some (beforeMark '"' M) := by
  rw [metadataText_macos]
  exact extract_eq (by decide) M _

theorem extract_metal : extract '"' (metadataText ⟨M, D⟩) (50 + M.length)
    = some (beforeMark '"' D) := by
  have hlen : ("\x7b\n  \"macos_version\": \"".toList ++ M
      ++ "\",\n  \"metal_driver_version\":".toList).length = 50 + M.length := by
    have hfirst : ("\x7b\n  \"macos_version\": \"".toList).length = 22 := by decide
    have hsecond : ("\",\n  \"metal_driver_version\":".toList).length = 28 := by decide
    rw [List.length_append, List.length_append, hfirst, hsecond]
    omega
  rw [metadataText_metal, ← hlen]
  exact extract_eq (by decide) D _

theorem extract_metalWord : extract '"' (metadataText ⟨metalWord, D⟩) 44 = some metalWord := by
  rw [metadataText_metalWord]
  exact extract_eq (by decide) metalWord _

/-- What is read: the first version up to its first quote, and whatever the other key leads to. -/
theorem readMetadata_eq_some_iff {m : CacheMetadata} :
    readMetadata (some (metadataText ⟨M, D⟩)) = some m ↔ m.macos_version = beforeMark '"' M ∧
      ∃ metal_pos, find (metadataText ⟨M, D⟩) "\"metal_driver_version\"".toList 0 = some metal_pos ∧
        extract '"' (metadataText ⟨M, D⟩) (metal_pos + 23) = some m.metal_driver_version := by
  obtain ⟨M', D'⟩ := m
  unfold readMetadata
  simp only [Option.bind_eq_bind, Option.bind_some, Option.bind_eq_some_iff, find_macos]
  constructor
  · rintro ⟨metal_pos, hpos, macos, hmacos, metal, hmetal, heq⟩
    rw [extract_macos] at hmacos
    obtain ⟨rfl, rfl⟩ := CacheMetadata.mk.inj (Option.some.inj heq)
    exact ⟨(Option.some.inj hmacos).symm, metal_pos, hpos, hmetal⟩
  · rintro ⟨rfl, metal_pos, hpos, hmetal⟩
    exact ⟨metal_pos, hpos, _, extract_macos M D, _, hmetal, rfl⟩

/-- What is read back when the first version has no quote: the second one up to its first quote, or
    the name of its field. -/
theorem readMetadata_text (hM : '"' ∉ M) : readMetadata (some (metadataText ⟨M, D⟩))
    = some ⟨M, if M = metalWord then metalWord else beforeMark '"' D⟩ := by
  rw [readMetadata_eq_some_iff, find_metal M D hM]
  refine ⟨(beforeMark_eq_self.mpr hM).symm, _, rfl, ?_⟩
  split_ifs with hword
  · subst hword
    exact extract_metalWord D
  · have hpos : 27 + M.length + 23 = 50 + M.length := by omega
    rw [hpos]
    exact extract_metal M D

end Text

/-! ### The round trip -/

/-- Versions without quotes; a first one that is the name of the second field goes with a second one
    that is that name, too. -/
def CacheMetadata.Plain (m : CacheMetadata) : Prop :=
  '"' ∉ m.macos_version ∧ '"' ∉ m.metal_driver_version ∧
    (m.macos_version = metalWord → m.metal_driver_version = metalWord)

/-- **The round trip.**  Metadata are read back exactly if they are plain. -/
theorem metadata_round_trip_iff (path : String) (m : CacheMetadata) :
    readMetadata (writeMetadata path true m).toOption = some m ↔ m.Plain := by
  obtain ⟨M, D⟩ := m
  show readMetadata (some (metadataText ⟨M, D⟩)) = _ ↔ _
  unfold CacheMetadata.Plain
  constructor
  · intro h
    have hM := beforeMark_eq_self.mp ((readMetadata_eq_some_iff M D).mp h).1.symm
    rw [readMetadata_text M D hM, Option.some.injEq, CacheMetadata.mk.injEq] at h
    split_ifs at h with hword
    · -- the name of the field is read for the second version
      have hD : D = metalWord := h.2.symm
      subst hD
      exact ⟨hM, (by decide : '"' ∉ metalWord), fun _ => rfl⟩
    · exact ⟨hM, beforeMark_eq_self.mp h.2, fun heq => absurd heq hword⟩
  · rintro ⟨hM, hD, himp⟩
    rw [readMetadata_text M D hM, beforeMark_eq_self.mpr hD]
    split_ifs with hword
    · obtain rfl : D = metalWord := himp hword
      rfl
    · rfl

/-- A file with plain metadata is accepted for the system that it was written for, and for no other
    one. -/
theorem validate_iff {path : String} {stored current : CacheMetadata} (h : stored.Plain) :
    validate (writeMetadata path true stored).toOption current = true ↔ stored = current := by
  obtain ⟨M, D⟩ := stored
  obtain ⟨M', D'⟩ := current
  obtain ⟨hM, hD, himp⟩ := h
  have hread : readMetadata (some (metadataText ⟨M, D⟩)) = some ⟨M, D⟩ := by
    rw [readMetadata_text M D hM, beforeMark_eq_self.mpr hD, ite_eq_right_iff.mpr fun hword =>
      (himp hword).symm]
  show (match readMetadata (some (metadataText ⟨M, D⟩)) with | none => false | some _ => _) = _ ↔ _
  rw [hread]
  simp [CacheMetadata.mk.injEq]

/-- The metadata of a device with a quote in its name. -/
def quotedDevice : CacheMetadata := ⟨"14.2.1".toList, "M1 \"Pro\"-4294968325".toList⟩

/-- The metadata of a device with a shorter name. -/
def shorterDevice : CacheMetadata := ⟨"14.2.1".toList, "M1 ".toList⟩

/-- A device name with a quote: its file is not accepted for the device, and is for another one. -/
theorem metadata_quote_lost :
    readMetadata (writeMetadata "g.json" true quotedDevice).toOption ≠ some quotedDevice ∧
      validate (writeMetadata "g.json" true quotedDevice).toOption quotedDevice = false ∧
      validate (writeMetadata "g.json" true quotedDevice).toOption shorterDevice = true := by
  have hvalue : readMetadata (writeMetadata "g.json" true quotedDevice).toOption
      = some shorterDevice := by
    show readMetadata (some (metadataText ⟨_, _⟩)) = _
    rw [readMetadata_text _ _ (by decide), if_neg (by decide)]
    rfl
  unfold validate
  rw [hvalue]
  exact ⟨by decide, rfl, rfl⟩

end MetalNative
