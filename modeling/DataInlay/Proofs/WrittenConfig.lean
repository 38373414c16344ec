/-
# DataInlay.Proofs.WrittenConfig — settings that are written to a file and loaded again

A configuration is written as a document of the settings that it gives, in any order and with
strings in any form that basic strings allow. Such a document is read as those settings. Each
sets the field of its own key and no other, so what has been taken over at any moment is the
configuration restricted to the keys read so far (`foldlM_restrict`), and in the end it is the
configuration itself, whatever the order. What then decides is the check of the values, which
goes by an order of its own (`config_written_then_loaded`).

The check is also what the settings in use rest on: the symbol and the extension are never
empty, no dot stands in front of the extension, and there is a width exactly if the document
has the key for it.
-/
import DataInlay.Proofs.OutputExtension
import DataInlay.Proofs.WrittenSettings

namespace DataInlay.Config

/-! ## The settings of a configuration -/

section Settings

variable {c : Config} {setting : String × Toml.Value}

/-- The settings that a configuration gives, with their keys. -/
def settings (c : Config) : List (String × Toml.Value) :=
  (c.symbol?.map fun s => ("symbol", .text s)).toList
    ++ (c.extension?.map fun s => ("extension", .text s)).toList
    ++ (c.bytesPerLine?.map fun n => ("bytes_per_line", .integer n)).toList

theorem mem_settings : setting ∈ c.settings ↔
    (∃ s, c.symbol? = some s ∧ setting = ("symbol", .text s))
    ∨ (∃ s, c.extension? = some s ∧ setting = ("extension", .text s))
    ∨ ∃ n : Nat, c.bytesPerLine? = some n ∧ setting = ("bytes_per_line", .integer n) := by
  simp only [settings, List.mem_append, Option.mem_toList, Option.map_eq_some_iff, or_assoc,
    eq_comm (a := setting)]

/-- The keys of a configuration are among three, in their order. -/
theorem keys_sublist (c : Config) :
    (c.settings.map Prod.fst).Sublist ["symbol", "extension", "bytes_per_line"] := by
  rcases c with ⟨_ | s, _ | e, _ | n⟩ <;> simp [settings]

theorem keys_nodup (c : Config) : (c.settings.map Prod.fst).Nodup :=
  c.keys_sublist.nodup (by decide)

theorem isBareKey_of_mem (h : setting ∈ c.settings) : Toml.IsBareKey setting.1 := by
  have bare : ∀ key ∈ ["symbol", "extension", "bytes_per_line"], Toml.IsBareKey key := by decide
  exact bare _ (c.keys_sublist.subset (List.mem_map_of_mem h))

/-- There is a way to write any of the settings, in any order. -/
theorem exists_writes {order : List (String × Toml.Value)}
    (h : ∀ setting ∈ order, setting ∈ c.settings) : ∃ document, Toml.Writes order document := by
  apply Toml.exists_writes
  intro setting hsetting
  obtain ⟨s, -, rfl⟩ | ⟨s, -, rfl⟩ | ⟨n, -, rfl⟩ := mem_settings.mp (h _ hsetting)
  · exact Toml.exists_writesText s
  · exact Toml.exists_writesText s
  · exact ⟨_, .integer n⟩

end Settings

/-! ## Taking settings over -/

section TakingOver

variable {c : Config} {setting : String × Toml.Value}

/-- The width of the configuration is one of those that the file may give. -/
def WidthFits (c : Config) : Prop := ∀ n ∈ c.bytesPerLine?, n < widthLimit

/-- The part of the configuration that is given under the keys. -/
def restrict (c : Config) (keys : List String) : Config where
  symbol? := if "symbol" ∈ keys then c.symbol? else none
  extension? := if "extension" ∈ keys then c.extension? else none
  bytesPerLine? := if "bytes_per_line" ∈ keys then c.bytesPerLine? else none

theorem restrict_nil (c : Config) : c.restrict [] = {} := rfl

theorem restrict_of_keys {keys : List String} (h : ∀ setting ∈ c.settings, setting.1 ∈ keys) :
    c.restrict keys = c := by
  have symbol : ∀ s, c.symbol? = some s → "symbol" ∈ keys := fun s hs =>
    h _ (mem_settings.mpr (.inl ⟨s, hs, rfl⟩))
  have extension : ∀ s, c.extension? = some s → "extension" ∈ keys := fun s hs =>
    h _ (mem_settings.mpr (.inr (.inl ⟨s, hs, rfl⟩)))
  have width : ∀ n, c.bytesPerLine? = some n → "bytes_per_line" ∈ keys := fun n hn =>
    h _ (mem_settings.mpr (.inr (.inr ⟨n, hn, rfl⟩)))
  rcases c with ⟨_ | s, _ | e, _ | n⟩ <;> simp_all [restrict]

theorem put_width (c : Config) {n : Nat} (h : n < widthLimit) :
    c.put "bytes_per_line" (.integer n) = .ok { c with bytesPerLine? := some n } := by
  have fits : 0 ≤ (n : Int) ∧ (n : Int) < widthLimit :=
    ⟨Int.natCast_nonneg n, Int.ofNat_lt.mpr h⟩
  rw [put, if_pos fits, Int.toNat_natCast]

/-- A setting of the configuration adds its key to those taken over. -/
theorem put_restrict (hfits : c.WidthFits) (h : setting ∈ c.settings) (read : List String) :
    (c.restrict read).put setting.1 setting.2 = .ok (c.restrict (read ++ [setting.1])) := by
  obtain ⟨s, hs, rfl⟩ | ⟨s, hs, rfl⟩ | ⟨n, hn, rfl⟩ := mem_settings.mp h
  · show Except.ok _ = Except.ok _
    simp [restrict, hs]
  · show Except.ok _ = Except.ok _
    simp [restrict, hs]
  · rw [put_width _ (hfits n hn)]
    simp [restrict, hn]

/-- So does a list of them, in any order. -/
theorem foldlM_restrict (hfits : c.WidthFits) {order : List (String × Toml.Value)}
    (h : ∀ setting ∈ order, setting ∈ c.settings) (read : List String) :
    order.foldlM (fun (c : Config) setting => c.put setting.1 setting.2) (c.restrict read)
      = .ok (c.restrict (read ++ order.map Prod.fst)) := by
  induction order generalizing read with
  | nil =>
    rw [List.map_nil, List.append_nil]
    rfl
  | cons setting order ih =>
    obtain ⟨hsetting, horder⟩ := List.forall_mem_cons.mp h
    rw [List.foldlM_cons, put_restrict hfits hsetting]
    show order.foldlM _ _ = _
    rw [ih horder, List.append_assoc]
    rfl

/-- A document of the settings, in any order, stands or falls with their check. -/
theorem ofDocument_of_writes (hfits : c.WidthFits) {order : List (String × Toml.Value)}
    (horder : order.Perm c.settings) {document : String} (h : Toml.Writes order document) :
    ofDocument document = match c.offender? with
      | some problem => .error problem
      | none => .ok c := by
  -- the reader keeps the order of the document, and taking over does not depend on it
  have read : Toml.settings document = .ok order :=
    Toml.settings_of_writes h (fun _ hsetting => isBareKey_of_mem (horder.mem_iff.mp hsetting))
      ((horder.map Prod.fst).nodup_iff.mpr c.keys_nodup)
  have taken : order.foldlM (fun (c : Config) setting => c.put setting.1 setting.2) {}
      = .ok c := by
    rw [← c.restrict_nil, foldlM_restrict hfits fun _ hsetting => horder.mem_iff.mp hsetting,
      restrict_of_keys]
    exact fun _ hsetting => List.mem_map_of_mem (horder.mem_iff.mpr hsetting)
  rw [ofDocument, read]
  dsimp only
  rw [taken]
  rfl

end TakingOver

/-! ## The check -/

theorem trimDots_eq_empty_iff (s : String) :
    trimDots s = "" ↔ s.toList.all (· == '.') = true := by
  rw [trimDots, String.ofList_eq_empty_iff, List.dropWhile_eq_nil_iff, List.all_eq_true]

theorem symbol_ne_empty {c : Config} (h : c.offender? = none) : c.symbol ≠ "" := by
  obtain ⟨hsymbol, -⟩ := offender?_eq_none_iff.mp h
  rw [symbol]
  cases hgiven : c.symbol? with
  | none => decide
  | some given =>
    rintro rfl
    exact hsymbol hgiven

/-- No dot is left in front of the extension. -/
theorem head?_extension (c : Config) : c.extension.toList.head? ≠ some '.' := by
  rw [extension]
  cases c.extension? with
  | none => decide
  | some given =>
    dsimp only
    rw [trimDots, String.toList_ofList]
    intro hdot
    have stops := List.head?_dropWhile_not (· == '.') given.toList
    rw [hdot] at stops
    exact absurd stops (by decide)

/-! ## The key for the width -/

section WidthKey

variable {c c' : Config}

/-- Only the key for the width sets the width, and it always does. -/
theorem width_of_put {key : String} {value : Toml.Value} (h : c.put key value = .ok c') :
    c'.bytesPerLine?.isSome ↔ c.bytesPerLine?.isSome ∨ key = "bytes_per_line" := by
  unfold put at h
  split at h
  · cases h
    simp
  · cases h
    simp
  · split at h
    · cases h
      simp
    · cases h
  -- values of the wrong type, and unknown keys
  · cases h
  · cases h
  · cases h
  · cases h

theorem width_of_foldlM {read : List (String × Toml.Value)}
    (h : read.foldlM (fun (c : Config) setting => c.put setting.1 setting.2) c = .ok c') :
    c'.bytesPerLine?.isSome
      ↔ c.bytesPerLine?.isSome ∨ "bytes_per_line" ∈ read.map Prod.fst := by
  induction read generalizing c with
  | nil =>
    cases h
    simp
  | cons setting read ih =>
    rw [List.foldlM_cons] at h
    cases hput : c.put setting.1 setting.2 with
    | error problem =>
      rw [hput] at h
      cases h
    | ok next =>
      rw [hput] at h
      rw [ih h, width_of_put hput, or_assoc, List.map_cons, List.mem_cons, eq_comm (b := setting.1)]

/-- Behind the check, every width that is set is used. -/
theorem width_isSome_iff (h : c.offender? = none) : c.width.isSome ↔ c.bytesPerLine?.isSome := by
  obtain ⟨-, -, hzero⟩ := offender?_eq_none_iff.mp h
  rw [width]
  cases hwidth : c.bytesPerLine? with
  | none => exact Iff.rfl
  | some n =>
    have positive : 0 < n := by
      apply Nat.pos_of_ne_zero
      rintro rfl
      exact hzero hwidth
    rw [Option.bind_some, Width.ofNat?, dif_pos positive]
    exact Iff.rfl

end WidthKey

/-! ## Files -/

/-- What the check says, in the terms of what was to be written. -/
theorem offender?_eq (symbol extension : Option String) (width : Option UInt64) :
    offender? ⟨symbol, extension, width.map UInt64.toNat⟩ =
      if symbol = some "" then some .emptySymbol
      else if extension.any fun e => e.toList.all (· == '.') then some .emptyExtension
      else if width = some 0 then some .zeroWidth
      else none := by
  have dots : extension.map trimDots = some ""
      ↔ (extension.any fun e => e.toList.all (· == '.')) = true := by
    cases extension with
    | none => simp
    | some given => simp [trimDots_eq_empty_iff]
  have zero : width.map UInt64.toNat = some 0 ↔ width = some 0 := by
    cases width with
    | none => simp
    | some n => simp [← UInt64.toNat_inj]
  simp only [offender?, dots, zero]

/-- **The settings in use are usable.** -/
theorem settings_in_use {files : FileTree} {p : Path} {config : Config}
    (accepted : loadFile files p = .ok config) :
    config.symbol ≠ "" ∧ config.extension ≠ "" ∧ config.extension.toList.head? ≠ some '.'
      ∧ ∃ bytes document read, files.read p = .ok bytes ∧ text? bytes = some document
        ∧ Toml.settings document = .ok read
        ∧ (config.width.isSome ↔ "bytes_per_line" ∈ read.map Prod.fst) := by
  obtain ⟨bytes, document, hbytes, htext, hdocument⟩ := document_of_loadFile accepted
  obtain ⟨read, hread, htaken, passed⟩ := settings_of_ofDocument hdocument
  refine ⟨symbol_ne_empty passed, extension_ne_empty passed, config.head?_extension,
    bytes, document, read, hbytes, htext, hread, ?_⟩
  rw [width_isSome_iff passed, width_of_foldlM htaken]
  simp

/-- **Settings that are written are loaded again.** Any symbol, extension and width can be
written as a document, with the settings in any order. A file that holds such a document loads
to exactly them, unless their values make no sense; then it fails for the first that does not,
in the order symbol, extension, width. And of every configuration that is loaded, the symbol
and the extension in use are not empty, no dot stands in front of the extension, and there is a
width exactly if the document has the key for it. -/
theorem config_written_then_loaded (symbol extension : Option String) (width : Option UInt64)
    {order : List (String × Toml.Value)}
    (horder : order.Perm (settings ⟨symbol, extension, width.map UInt64.toNat⟩)) :
    (∃ document, Toml.Writes order document)
    ∧ (∀ document, Toml.Writes order document →
        ∀ (files : FileTree) (p : Path), files.read p = .ok (utf8 document) →
          loadFile files p =
            if symbol = some "" then .error (.invalidConfig "`symbol` must not be empty")
            else if extension.any fun e => e.toList.all (· == '.') then
              .error (.invalidConfig "`extension` must not be empty")
            else if width = some 0 then
              .error (.invalidConfig "`bytes_per_line` must be greater than zero")
            else .ok ⟨symbol, extension, width.map UInt64.toNat⟩)
    ∧ ∀ (files : FileTree) (p : Path) (config : Config), loadFile files p = .ok config →
        config.symbol ≠ "" ∧ config.extension ≠ "" ∧ config.extension.toList.head? ≠ some '.'
        ∧ ∃ bytes document read, files.read p = .ok bytes ∧ text? bytes = some document
          ∧ Toml.settings document = .ok read
          ∧ (config.width.isSome ↔ "bytes_per_line" ∈ read.map Prod.fst) := by
  have hfits : WidthFits ⟨symbol, extension, width.map UInt64.toNat⟩ := by
    intro n hn
    obtain ⟨given, -, rfl⟩ := Option.map_eq_some_iff.mp hn
    exact given.toNat_lt_size
  refine ⟨exists_writes fun _ hsetting => horder.mem_iff.mp hsetting, ?_, ?_⟩
  · intro document written files p hread
    have loaded := ofDocument_of_writes hfits horder written
    rw [offender?_eq] at loaded
    rw [loadFile, hread]
    dsimp only
    rw [text?_utf8]
    dsimp only
    rw [loaded]
    split_ifs <;> rfl
  · exact fun _ _ _ => settings_in_use

/-- A file that gives the greatest width first, and a dot and a line feed by their codes. -/
theorem greatest_width_written_first :
    let document := "bytes_per_line = 18446744073709551615\n" ++ "extension = \"\\u002Eh\"\n"
      ++ "symbol = \"a\\x0a\"\n"
    let files : FileTree :=
      { entries := [([utf8 "embedjson.toml"], .file (utf8 document))], workingDirectory := [] }
    loadFile files (.ofText "/embedjson.toml")
      = .ok ⟨some "a\n", some ".h", some 18446744073709551615⟩ := by
  intro document files
  have dot : Toml.WritesChar '.' ['\\', 'u', '0', '0', '2', 'E'] :=
    .code (by decide) ⟨[0, 0, 2, 14],
      .cons (.inl rfl) (.cons (.inl rfl) (.cons (.inl rfl) (.cons (.inr rfl) .nil))), rfl⟩
  have lineFeed : Toml.WritesChar '\n' ['\\', 'x', '0', 'a'] :=
    .code (by decide) ⟨[0, 10], .cons (.inl rfl) (.cons (.inl rfl) .nil), rfl⟩
  have width : Toml.WritesSetting ("bytes_per_line", .integer 18446744073709551615)
      "bytes_per_line = 18446744073709551615\n".toList :=
    ⟨_, .integer 18446744073709551615, by decide +kernel⟩
  have extension : Toml.WritesSetting ("extension", .text ".h")
      "extension = \"\\u002Eh\"\n".toList :=
    ⟨_, .text (.cons dot (.cons (.plain (.inr (by decide)) (by decide) (by decide)) .nil)),
      by decide⟩
  have symbol : Toml.WritesSetting ("symbol", .text "a\n") "symbol = \"a\\x0a\"\n".toList :=
    ⟨_, .text (.cons (.plain (.inr (by decide)) (by decide) (by decide)) (.cons lineFeed .nil)),
      by decide⟩
  have written : Toml.Writes [("bytes_per_line", .integer 18446744073709551615),
      ("extension", .text ".h"), ("symbol", .text "a\n")] document :=
    ⟨_, .cons width (.cons extension (.cons symbol .nil)), by decide⟩
  have held : files.read (.ofText "/embedjson.toml") = .ok (utf8 document) := by decide +kernel
  have horder : List.Perm [("bytes_per_line", .integer 18446744073709551615),
      ("extension", .text ".h"), ("symbol", .text "a\n")]
      (settings ⟨some "a\n", some ".h", (some 18446744073709551615).map UInt64.toNat⟩) := by
    decide
  obtain ⟨-, loads, -⟩ := config_written_then_loaded (some "a\n") (some ".h") _ horder
  rw [loads document written files _ held]
  decide +kernel

end DataInlay.Config
