import ValueFlow.Proofs.Yaml.Blocks
import ValueFlow.Settings.Document

/-!
# Settings are read as they are written

Whatever the library, a node that stands for what a document writes is read as the document: which
entries are written and how (`SettingsDocument.value`) fits which entries are looked for and what is
asked of them (`SettingsDocument.ofNode?`). This is `ofNode?_value`, entry by entry, also for those
that are left out. Settings in full make up a block mapping (`isBlock_value`), so a library that is
faithful prints them and shows them again, and all that is left of reading them is the check of the
bounds.

* `parse_render`: for all settings, the numbers at the ends of their ranges among them.
-/

namespace ValueFlow

open Yaml

variable {lib : Library}

/-! ## 1. Entries -/

namespace Yaml.Library

variable {fields : List (String × lib.Node)} {entries : List (String × Value)} {name : String}

theorem ShowAll.map_fst (h : lib.ShowAll fields entries) :
    fields.map Prod.fst = entries.map Prod.fst := by
  induction entries generalizing fields with
  | nil =>
    rw [show fields = [] from h]
    rfl
  | cons e entries ih =>
    obtain ⟨node, rest, rfl, -, hrest⟩ := h
    rw [List.map_cons, List.map_cons, ih hrest]

/-- What is looked up stands for what was written under the name. -/
theorem ShowAll.lookup (h : lib.ShowAll fields entries) (name : String) :
    match entries.lookup name with
    | none => fields.lookup name = none
    | some v => ∃ node, fields.lookup name = some node ∧ lib.Shows node v := by
  induction entries generalizing fields with
  | nil =>
    rw [show fields = [] from h]
    rfl
  | cons e entries ih =>
    obtain ⟨node, rest, rfl, hnode, hrest⟩ := h
    rw [List.lookup_cons, List.lookup_cons]
    cases hname : name == e.1 with
    | true => exact ⟨node, rfl, hnode⟩
    | false => exact ih hrest

end Yaml.Library

section Fields

variable {α : Type} {fields : List (String × lib.Node)} {entries : List (String × Value)}
  {name : String} {read : lib.Node → Option α}

/-- **All entries are known** if they are written under allowed names. -/
theorem knownFields_of_shows {node : lib.Node} {allowed : List String}
    (h : lib.Shows node (.mapping entries)) (hallowed : (entries.map Prod.fst).Sublist allowed)
    (hnodup : allowed.Nodup) :
    ∃ fields, knownFields lib allowed node = some fields ∧ lib.ShowAll fields entries := by
  obtain ⟨-, fields, hfields, hall⟩ := h
  have hnames : ((fields.map Prod.fst).all allowed.contains &&
      decide (fields.map Prod.fst).Nodup) = true := by
    rw [hall.map_fst, Bool.and_eq_true, List.all_eq_true]
    refine ⟨fun name hname => ?_, decide_eq_true (hnodup.sublist hallowed)⟩
    exact List.contains_iff_mem.mpr (hallowed.subset hname)
  refine ⟨fields, ?_, hall⟩
  unfold knownFields
  rw [hfields]
  exact if_pos hnames

/-- **An entry is read as it was written**, or was left out. -/
theorem optionalField_of_showAll (write : α → Value) (h : lib.ShowAll fields entries)
    {a? : Option α} (hlookup : entries.lookup name = a?.map write)
    (hread : ∀ a ∈ a?, ∀ node, lib.Shows node (write a) →
      lib.isNull node = false ∧ read node = some a) :
    optionalField lib fields name read = some a? := by
  have hfound := h.lookup name
  rw [hlookup] at hfound
  unfold optionalField
  cases a? with
  | none => rw [show fields.lookup name = none from hfound]
  | some a =>
    obtain ⟨node, hnode, hshows⟩ := hfound
    obtain ⟨hnull, ha⟩ := hread a rfl node hshows
    rw [hnode]
    dsimp only
    rw [hnull, ha]
    rfl

theorem lookup_optionalEntry (name : String) (write : α → Value) (a? : Option α) (k : String) :
    (optionalEntry name write a?).lookup k = if k = name then a?.map write else none := by
  cases a? with
  | none => simp [optionalEntry]
  | some a =>
    by_cases hk : k = name
    · simp [optionalEntry, hk]
    · have hne : (k == name) = false := beq_eq_false_iff_ne.mpr hk
      simp [optionalEntry, hk, List.lookup_cons, hne]

theorem map_fst_optionalEntry (name : String) (write : α → Value) (a? : Option α) :
    ((optionalEntry name write a?).map Prod.fst).Sublist [name] := by
  cases a? with
  | none => exact List.nil_sublist _
  | some a => exact List.Sublist.refl _

end Fields

/-! ## 2. Numbers and names -/

section Leaves

variable {node : lib.Node}

theorem readInt64_of_shows (n : Int64) (h : lib.Shows node (.integer n.toInt)) :
    readInt64 lib node = some n := by
  have hrange : (decide (Int64.minValue.toInt ≤ n.toInt) &&
      decide (n.toInt ≤ Int64.maxValue.toInt)) = true := by
    rw [Bool.and_eq_true]
    exact ⟨decide_eq_true n.minValue_le_toInt, decide_eq_true n.toInt_le⟩
  unfold readInt64
  rw [h.2.1, Option.bind_some, if_pos hrange, Int64.ofInt_toInt]

theorem readNatBelow_of_shows {n bound : Nat} (hn : n < bound) (h : lib.Shows node (.integer n)) :
    readNatBelow lib bound node = some n := by
  unfold readNatBelow
  rw [h.2.2 n rfl]
  simp [Option.filter, hn]

theorem IndexStrategy.ofName?_name (s : IndexStrategy) : IndexStrategy.ofName? s.name = some s := by
  cases s <;> rfl

theorem BagOrder.ofName?_name (o : BagOrder) : BagOrder.ofName? o.name = some o := by
  cases o <;> rfl

end Leaves

/-! ## 3. Documents -/

theorem SettingsPatch.map_fst_entries (p : SettingsPatch) : (p.entries.map Prod.fst).Sublist
    ["scc_interval", "index_strategy", "bag_order", "call_string_depth"] := by
  unfold SettingsPatch.entries
  rw [List.map_append, List.map_append, List.map_append]
  exact (((map_fst_optionalEntry _ _ _).append (map_fst_optionalEntry _ _ _)).append
    (map_fst_optionalEntry _ _ _)).append (map_fst_optionalEntry _ _ _)

theorem SettingsDocument.map_fst_entries (d : SettingsDocument) :
    (d.entries.map Prod.fst).Sublist ["version", "preset", "solver"] := by
  unfold SettingsDocument.entries
  rw [List.map_cons, List.map_append]
  exact ((map_fst_optionalEntry _ _ _).append (map_fst_optionalEntry _ _ _)).cons_cons _

/-- **A patch is read as it was written**, whichever settings it gives. -/
theorem SettingsPatch.ofNode?_value {node : lib.Node} (p : SettingsPatch)
    (h : lib.Shows node p.value) : SettingsPatch.ofNode? lib node = some p := by
  obtain ⟨fields, hfields, hall⟩ := knownFields_of_shows h p.map_fst_entries (by decide)
  have hinterval : optionalField lib fields "scc_interval" (readInt64 lib) =
      some p.sccInterval := by
    refine optionalField_of_showAll (fun n => .integer n.toInt) hall ?_ ?_
    · simp [SettingsPatch.entries, List.lookup_append, lookup_optionalEntry]
    · exact fun n _ node hn => ⟨hn.1, readInt64_of_shows n hn⟩
  have hstrategy : optionalField lib fields "index_strategy" (fun node =>
      (lib.string? node).bind IndexStrategy.ofName?) = some p.indexStrategy := by
    refine optionalField_of_showAll (fun s => .string s.name) hall ?_ ?_
    · simp [SettingsPatch.entries, List.lookup_append, lookup_optionalEntry]
    · rintro s - node ⟨hnull, hs⟩
      exact ⟨hnull, by rw [hs, Option.bind_some, s.ofName?_name]⟩
  have horder : optionalField lib fields "bag_order" (fun node =>
      (lib.string? node).bind BagOrder.ofName?) = some p.bagOrder := by
    refine optionalField_of_showAll (fun o => .string o.name) hall ?_ ?_
    · simp [SettingsPatch.entries, List.lookup_append, lookup_optionalEntry]
    · rintro o - node ⟨hnull, ho⟩
      exact ⟨hnull, by rw [ho, Option.bind_some, o.ofName?_name]⟩
  have hdepth : optionalField lib fields "call_string_depth" (fun node =>
      (readNatBelow lib UInt64.size node).map UInt64.ofNat) = some p.callDepth := by
    refine optionalField_of_showAll (fun n => .integer n.toNat) hall ?_ ?_
    · simp [SettingsPatch.entries, List.lookup_append, lookup_optionalEntry]
    · refine fun n _ node hn => ⟨hn.1, ?_⟩
      rw [readNatBelow_of_shows n.toNat_lt_size hn, Option.map_some, UInt64.ofNat_toNat]
  unfold SettingsPatch.ofNode?
  rw [hfields, Option.bind_eq_bind, Option.bind_some, hinterval, hstrategy, horder, hdepth]
  rfl

/-- **A document is read as it was written**, if its version is one of 32 bits. -/
theorem SettingsDocument.ofNode?_value {node : lib.Node} (d : SettingsDocument)
    (hsize : ∀ v ∈ d.version, v < UInt32.size) (h : lib.Shows node d.value) :
    SettingsDocument.ofNode? lib node = some d := by
  obtain ⟨fields, hfields, hall⟩ := knownFields_of_shows h d.map_fst_entries (by decide)
  have hversion : optionalField lib fields "version" (readNatBelow lib UInt32.size) =
      some d.version := by
    have hlookup : d.entries.lookup "version" = some (versionValue d.version) := rfl
    have hfound := hall.lookup "version"
    rw [hlookup] at hfound
    obtain ⟨node, hnode, hshows⟩ := hfound
    unfold optionalField
    rw [hnode]
    cases hv : d.version with
    | none =>
      rw [hv] at hshows
      exact if_pos hshows
    | some v =>
      rw [hv] at hshows
      dsimp only
      rw [hshows.1, readNatBelow_of_shows (hsize v hv) hshows]
      rfl
  have hpreset : optionalField lib fields "preset" lib.string? = some d.preset := by
    refine optionalField_of_showAll .string hall ?_ ?_
    · simp [SettingsDocument.entries, List.lookup_cons, List.lookup_append, lookup_optionalEntry]
    · exact fun s _ node hs => hs
  have hsolver : optionalField lib fields "solver" (SettingsPatch.ofNode? lib) = some d.solver := by
    refine optionalField_of_showAll SettingsPatch.value hall ?_ ?_
    · simp [SettingsDocument.entries, List.lookup_cons, List.lookup_append, lookup_optionalEntry]
    · exact fun p _ node hp => ⟨hp.1, p.ofNode?_value hp⟩
  unfold SettingsDocument.ofNode?
  rw [hfields, Option.bind_eq_bind, Option.bind_some, hversion, hpreset, hsolver]
  rfl

namespace Settings

/-- Settings in full are a block mapping. -/
theorem isBlock_value (s : Settings) : (SettingsDocument.ofSettings s).value.isBlock = true := by
  have hmin : Int64.minValue.toInt = -9223372036854775808 := rfl
  have hmax : Int64.maxValue.toInt = 9223372036854775807 := rfl
  have hsize : (UInt64.size : Int) = 18446744073709551616 := rfl
  have hinterval : isDecimal s.sccInterval.toInt = true := by
    have hle := s.sccInterval.minValue_le_toInt
    have hle' := s.sccInterval.toInt_le
    simp only [isDecimal, Bool.and_eq_true, decide_eq_true_eq]
    omega
  have hdepth : isDecimal s.callDepth.toNat = true := by
    have hlt := s.callDepth.toNat_lt_size
    simp only [isDecimal, Bool.and_eq_true, decide_eq_true_eq]
    omega
  have hstrategy : isPlain s.indexStrategy.name = true := by
    cases s.indexStrategy <;> decide +kernel
  have horder : isPlain s.bagOrder.name = true := by
    cases s.bagOrder <;> decide +kernel
  have hsolver : (SettingsPatch.ofSettings s).value.isBlock = true := by
    refine Value.isBlock_mapping.mpr ⟨List.cons_ne_nil _ _, ?_, ?_⟩
    · show ["scc_interval", "index_strategy", "bag_order", "call_string_depth"].Nodup
      decide
    · refine Value.areBlocks_cons.mpr ⟨by decide +kernel, hinterval, ?_⟩
      refine Value.areBlocks_cons.mpr ⟨by decide +kernel, hstrategy, ?_⟩
      refine Value.areBlocks_cons.mpr ⟨by decide +kernel, horder, ?_⟩
      exact Value.areBlocks_cons.mpr ⟨by decide +kernel, hdepth, rfl⟩
  refine Value.isBlock_mapping.mpr ⟨List.cons_ne_nil _ _, ?_, ?_⟩
  · show ["version", "preset", "solver"].Nodup
    decide
  · have hversion : (versionValue (some 1)).isBlock = true := by decide +kernel
    have hpreset : (Value.string Preset.custom.name).isBlock = true := by decide +kernel
    refine Value.areBlocks_cons.mpr ⟨by decide +kernel, hversion, ?_⟩
    refine Value.areBlocks_cons.mpr ⟨by decide +kernel, hpreset, ?_⟩
    exact Value.areBlocks_cons.mpr ⟨by decide +kernel, hsolver, rfl⟩

/-- Settings that are given in full take the place of those of the preset. -/
theorem settings_ofSettings (s : Settings) :
    (SettingsDocument.ofSettings s).settings = s.validate.map fun _ => s := by
  have hpreset : Preset.parse Preset.custom.name = .ok .custom := rfl
  have hpatch : Preset.custom.settings.patch (.ofSettings s) = s := rfl
  show (Preset.parse Preset.custom.name >>= fun preset =>
    (preset.settings.patch (.ofSettings s)).validate >>= fun _ =>
      pure (preset.settings.patch (.ofSettings s))) = _
  rw [hpreset]
  show ((Preset.custom.settings.patch (.ofSettings s)).validate >>= fun _ =>
    pure (Preset.custom.settings.patch (.ofSettings s))) = _
  rw [hpatch]
  cases s.validate <;> rfl

/-! ## 4. The round trip -/

/-- **Settings are read as they are written**, by every library that prints and reads faithfully: if
they keep the bounds, and if not, what is wrong with them is what is wrong with the text, and the
interval is looked at first. -/
theorem parse_render (hlib : lib.Faithful) (s : Settings) :
    ∃ text, s.render lib = .ok text ∧ parse lib text = s.validate.map (fun _ => s) ∧
      parse lib text =
        if maxInterval < s.sccInterval then .error (.intervalTooLarge s.sccInterval)
        else if maxDepth < s.callDepth then .error (.depthTooLarge s.callDepth)
        else .ok s := by
  obtain ⟨text, node, hprint, hread, hshows⟩ := hlib _ s.isBlock_value
  have hversion : ∀ v ∈ (SettingsDocument.ofSettings s).version, v < UInt32.size := by
    rintro v ⟨⟩
    decide
  have hparse : parse lib text = s.validate.map fun _ => s := by
    unfold parse
    rw [hread, Option.bind_some, SettingsDocument.ofNode?_value _ hversion hshows]
    exact s.settings_ofSettings
  have hrender : s.render lib = .ok text := by
    unfold render
    rw [show lib.print? (SettingsDocument.ofSettings s).value = some text from hprint]
  refine ⟨text, hrender, hparse, hparse.trans ?_⟩
  unfold validate
  split
  · rfl
  · split <;> rfl

/-- The largest interval and the largest depth that can be written: both are out of bounds. -/
def utmost : Settings := ⟨Int64.maxValue, .memoryIntensive, .fifo, 18446744073709551615⟩

/-- The least interval, with the largest depth that is allowed. -/
def lowest : Settings := ⟨Int64.minValue, .processorIntensive, .lifo, 32⟩

theorem parse_render_blocks : blocks.Faithful ∧
    (∃ text, utmost.render blocks = .ok text ∧
      parse blocks text = .error (.intervalTooLarge Int64.maxValue)) ∧
    ∃ text, lowest.render blocks = .ok text ∧ parse blocks text = .ok lowest := by
  refine ⟨faithful_blocks, ?_, ?_⟩
  · obtain ⟨text, hrender, -, hparse⟩ := parse_render faithful_blocks utmost
    exact ⟨text, hrender, hparse⟩
  · obtain ⟨text, hrender, -, hparse⟩ := parse_render faithful_blocks lowest
    exact ⟨text, hrender, hparse⟩

end Settings

end ValueFlow
