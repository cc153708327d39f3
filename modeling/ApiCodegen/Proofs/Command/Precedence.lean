import Mathlib
import ApiCodegen.Command.Run

/-!
# Options take precedence over the configuration file

The settings of a command are those of its configuration file, or the defaults, in which options replace some
fields. They are validated twice. What a file holds must be usable on its own, also where an option replaces
it; and so must be what it becomes.

* `Settings.Usable`: what settings must satisfy, and `Settings.validate_ok_iff`.
* `Options.Asks`, `Options.Agrees`: **what options ask for, and what they leave as it is.**
* `Options.override_eq_iff`: these determine the settings in which options take precedence.
* `Options.override_eq_override_iff`: exactly the fields that no option replaces have an influence.
* `Options.StartsFrom`: the settings before options replace any.
* `Options.settings_eq_ok_iff`: **when a command has settings, and which.**
* `Options.settings_congr`: a value that is replaced has no influence, among usable ones.
* `Options.settings_precedence`: all of this.
* `Options.not_settings_of_usable_override`: a file with a prefix that is not usable is refused even though an
  option replaces the prefix.
-/

namespace ApiCodegen

/-! ## Usable settings -/

namespace Settings

variable {s : Settings} {text : String} {failure : Failure}

/-- **Settings that can be used**: the path prefix starts with a slash and does not end with one, and there is
a target. -/
structure Usable (s : Settings) : Prop where
  start : ∃ rest, s.apiPrefix.toList = '/' :: rest
  finish : ∀ front, s.apiPrefix.toList ≠ front ++ ['/']
  target : s.targets ≠ []

theorem isPathPrefix_iff : isPathPrefix text ↔
    (∃ rest, text.toList = '/' :: rest) ∧ ∀ front, text.toList ≠ front ++ ['/'] := by
  have hstart : text.toList.head? = some '/' ↔ ∃ rest, text.toList = '/' :: rest := List.head?_eq_some_iff
  have hfinish : text.toList.getLast? = some '/' ↔ ∃ front, text.toList = front ++ ['/'] :=
    List.getLast?_eq_some_iff
  rw [isPathPrefix, Bool.and_eq_true, beq_iff_eq, bne_iff_ne, hstart, ne_eq, hfinish, not_exists]

theorem usable_iff : s.Usable ↔ isPathPrefix s.apiPrefix ∧ s.targets ≠ [] := by
  rw [isPathPrefix_iff]
  exact ⟨fun h => ⟨⟨h.start, h.finish⟩, h.target⟩, fun h => ⟨h.1.1, h.1.2, h.2⟩⟩

/-- **Settings pass validation exactly if they can be used.** -/
theorem validate_ok_iff : s.validate = .ok () ↔ s.Usable := by
  rw [usable_iff]
  unfold validate
  by_cases hstart : isPathPrefix s.apiPrefix
  · by_cases htargets : s.targets = []
    · simp [hstart, htargets]
    · simp [hstart, htargets]
  · simp [hstart]

theorem exists_validate_error (h : ¬ s.Usable) : ∃ failure, s.validate = .error failure := by
  cases hvalidate : s.validate with
  | error failure => exact ⟨failure, rfl⟩
  | ok _ => exact absurd (validate_ok_iff.1 hvalidate) h

/-- The defaults can be used. -/
theorem usable_default : ({} : Settings).Usable := validate_ok_iff.1 (by decide)

end Settings

namespace Command.Options

variable {o : Options} {t t' : File.Tree} {base base' s : Settings} {path text : String}

/-! ## What options replace -/

/-- **What options ask for** holds of some settings. If references are to be strict and lenient, they are
lenient. -/
structure Asks (o : Options) (s : Settings) : Prop where
  apiPrefix : ∀ p, o.apiPrefix = some p → s.apiPrefix = p
  lenient : o.lenientReferences → s.references = .lenient
  strict : o.strictReferences → o.lenientReferences = false → s.references = .strict
  tieBreak : o.rejectConflicts → s.tieBreak = .reject
  bindingPolicy : o.strictBindings → s.bindingPolicy = .strict
  targets : o.targets ≠ [] → s.targets = o.targets
  outDir : ∀ d, o.outDir = some d → s.outDir = d
  format : o.noFormat → s.format = false

/-- **Settings agree on what no option asks for.** No option asks for the paths and names of the files, or for
service functions. -/
structure Agrees (o : Options) (a b : Settings) : Prop where
  apiPrefix : o.apiPrefix = none → a.apiPrefix = b.apiPrefix
  references : o.lenientReferences = false → o.strictReferences = false → a.references = b.references
  tieBreak : o.rejectConflicts = false → a.tieBreak = b.tieBreak
  bindingPolicy : o.strictBindings = false → a.bindingPolicy = b.bindingPolicy
  targets : o.targets = [] → a.targets = b.targets
  outDir : o.outDir = none → a.outDir = b.outDir
  format : o.noFormat = false → a.format = b.format
  server : a.server = b.server
  client : a.client = b.client
  bindings : a.bindings = b.bindings

theorem Agrees.symm (h : o.Agrees base s) : o.Agrees s base where
  apiPrefix ho := (h.apiPrefix ho).symm
  references hl hs := (h.references hl hs).symm
  tieBreak ho := (h.tieBreak ho).symm
  bindingPolicy ho := (h.bindingPolicy ho).symm
  targets ho := (h.targets ho).symm
  outDir ho := (h.outDir ho).symm
  format ho := (h.format ho).symm
  server := h.server.symm
  client := h.client.symm
  bindings := h.bindings.symm

theorem Agrees.trans (h : o.Agrees base s) (h' : o.Agrees s base') : o.Agrees base base' where
  apiPrefix ho := (h.apiPrefix ho).trans (h'.apiPrefix ho)
  references hl hs := (h.references hl hs).trans (h'.references hl hs)
  tieBreak ho := (h.tieBreak ho).trans (h'.tieBreak ho)
  bindingPolicy ho := (h.bindingPolicy ho).trans (h'.bindingPolicy ho)
  targets ho := (h.targets ho).trans (h'.targets ho)
  outDir ho := (h.outDir ho).trans (h'.outDir ho)
  format ho := (h.format ho).trans (h'.format ho)
  server := h.server.trans h'.server
  client := h.client.trans h'.client
  bindings := h.bindings.trans h'.bindings

theorem asks_override (o : Options) (base : Settings) : o.Asks (o.override base) where
  apiPrefix p hp := by simp [override, hp]
  lenient hl := by simp [override, hl]
  strict hs hl := by simp [override, hs, hl]
  tieBreak ho := by simp [override, ho]
  bindingPolicy ho := by simp [override, ho]
  targets ho := by simp [override, ho]
  outDir d hd := by simp [override, hd]
  format ho := by simp [override, ho]

theorem agrees_override (o : Options) (base : Settings) : o.Agrees base (o.override base) where
  apiPrefix ho := by simp [override, ho]
  references hl hs := by simp [override, hl, hs]
  tieBreak ho := by simp [override, ho]
  bindingPolicy ho := by simp [override, ho]
  targets ho := by simp [override, ho]
  outDir ho := by simp [override, ho]
  format ho := by simp [override, ho]
  server := rfl
  client := rfl
  bindings := rfl

/-- Settings of which the same is asked, and that agree on all else, are the same. -/
theorem eq_of_asks (ha : o.Asks s) (hb : o.Asks base) (h : o.Agrees s base) : s = base := by
  have hpaths : s.apiPrefix = base.apiPrefix := by
    cases ho : o.apiPrefix with
    | none => exact h.apiPrefix ho
    | some p => rw [ha.apiPrefix p ho, hb.apiPrefix p ho]
  have hreferences : s.references = base.references := by
    by_cases hl : o.lenientReferences
    · rw [ha.lenient hl, hb.lenient hl]
    · by_cases hs : o.strictReferences
      · rw [ha.strict hs (by simpa using hl), hb.strict hs (by simpa using hl)]
      · exact h.references (by simpa using hl) (by simpa using hs)
  have htieBreak : s.tieBreak = base.tieBreak := by
    by_cases ho : o.rejectConflicts
    · rw [ha.tieBreak ho, hb.tieBreak ho]
    · exact h.tieBreak (by simpa using ho)
  have hpolicy : s.bindingPolicy = base.bindingPolicy := by
    by_cases ho : o.strictBindings
    · rw [ha.bindingPolicy ho, hb.bindingPolicy ho]
    · exact h.bindingPolicy (by simpa using ho)
  have htargets : s.targets = base.targets := by
    by_cases ho : o.targets = []
    · exact h.targets ho
    · rw [ha.targets ho, hb.targets ho]
  have houtDir : s.outDir = base.outDir := by
    cases ho : o.outDir with
    | none => exact h.outDir ho
    | some d => rw [ha.outDir d ho, hb.outDir d ho]
  have hformat : s.format = base.format := by
    by_cases ho : o.noFormat
    · rw [ha.format ho, hb.format ho]
    · exact h.format (by simpa using ho)
  obtain ⟨_, _, _, _, _, _, _, _, _, _⟩ := s
  obtain ⟨_, _, _, _, _, _, _, _, _, _⟩ := base
  simp only [Settings.mk.injEq]
  exact ⟨hpaths, hreferences, htieBreak, hpolicy, htargets, houtDir, h.server, h.client, h.bindings, hformat⟩

/-- **The settings in which options take precedence**: all that is asked for holds of them, and all else is as
it was. -/
theorem override_eq_iff : s = o.override base ↔ o.Asks s ∧ o.Agrees base s := by
  constructor
  · rintro rfl
    exact ⟨asks_override o base, agrees_override o base⟩
  · rintro ⟨hasks, hagrees⟩
    exact eq_of_asks hasks (asks_override o base) (hagrees.symm.trans (agrees_override o base))

/-- **Exactly the fields that no option replaces have an influence.** -/
theorem override_eq_override_iff : o.override base = o.override base' ↔ o.Agrees base base' := by
  constructor
  · intro h
    have hbase' := (agrees_override o base').symm
    rw [← h] at hbase'
    exact (agrees_override o base).trans hbase'
  · intro h
    exact (override_eq_iff.2 ⟨asks_override o base', h.trans (agrees_override o base')⟩).symm

/-! ## The settings of a command -/

/-- **The settings before options replace any**: the defaults, or those of the text of the configuration file,
usable or not. -/
def StartsFrom (o : Options) (t : File.Tree) (base : Settings) : Prop :=
  match o.config with
  | none => base = {}
  | some path => ∃ text, t.readText path = .ok text ∧ Settings.parse? text = some base

theorem startsFrom_some (ho : o.config = some path) (htext : t.readText path = .ok text)
    (hparse : Settings.parse? text = some base) : o.StartsFrom t base := by
  unfold StartsFrom
  rw [ho]
  exact ⟨text, htext, hparse⟩

/-- The settings of a file are validated on their own. -/
theorem fileSettings_eq (htext : t.readText path = .ok text) (hparse : Settings.parse? text = some base) :
    fileSettings t path = base.validate.map fun _ => base := by
  have hread : fileSettings t path = Settings.read text := by
    unfold fileSettings
    rw [htext]
    rfl
  rw [hread, Settings.read, hparse]
  cases hvalidate : base.validate <;> simp only [hvalidate] <;> rfl

/-- Usable settings are replaced and validated again. -/
theorem settings_of_usable (h : o.StartsFrom t base) (hbase : base.Usable) :
    o.settings t = (((o.override base).validate).mapError Fault.settings).map fun _ => o.override base := by
  have hvalid := Settings.validate_ok_iff.2 hbase
  have hreplaced : o.settings t = (do
      ((o.override base).validate).mapError Fault.settings
      .ok (o.override base)) := by
    unfold StartsFrom at h
    cases ho : o.config with
    | none =>
      rw [ho] at h
      subst h
      simp only [settings, ho]
      rfl
    | some path =>
      rw [ho] at h
      obtain ⟨text, htext, hparse⟩ := h
      simp only [settings, ho, fileSettings_eq htext hparse, hvalid]
      rfl
  rw [hreplaced]
  cases (o.override base).validate <;> rfl

/-- Settings that are not usable are those of a file, and the file is refused. -/
theorem settings_of_not_usable (h : o.StartsFrom t base) (hbase : ¬ base.Usable) :
    ∃ path cause, o.config = some path ∧ base.validate = .error cause ∧
      o.settings t = .error (.configFile path cause) := by
  obtain ⟨cause, hcause⟩ := Settings.exists_validate_error hbase
  unfold StartsFrom at h
  cases ho : o.config with
  | none =>
    rw [ho] at h
    subst h
    exact absurd Settings.usable_default hbase
  | some path =>
    rw [ho] at h
    obtain ⟨text, htext, hparse⟩ := h
    refine ⟨path, cause, rfl, hcause, ?_⟩
    simp only [settings, ho, fileSettings_eq htext hparse, hcause]
    rfl

/-- **When a command has settings, and which**: those that it starts from must be usable, and so must be what they
become. -/
theorem settings_eq_ok_iff (h : o.StartsFrom t base) :
    o.settings t = .ok s ↔ base.Usable ∧ s.Usable ∧ s = o.override base := by
  by_cases hbase : base.Usable
  · rw [settings_of_usable h hbase]
    by_cases hover : (o.override base).Usable
    · rw [Settings.validate_ok_iff.2 hover]
      constructor
      · intro hs
        obtain rfl := Except.ok.inj hs
        exact ⟨hbase, hover, rfl⟩
      · rintro ⟨-, -, rfl⟩
        rfl
    · obtain ⟨cause, hcause⟩ := Settings.exists_validate_error hover
      rw [hcause]
      constructor
      · intro hs
        cases hs
      · rintro ⟨-, hs, rfl⟩
        exact absurd hs hover
  · obtain ⟨path, cause, -, -, hrefused⟩ := settings_of_not_usable h hbase
    rw [hrefused]
    constructor
    · intro hs
      cases hs
    · intro hs
      exact absurd hs.1 hbase

/-- **A value that is replaced has no influence**, among usable settings. -/
theorem settings_congr (h : o.StartsFrom t base) (h' : o.StartsFrom t' base') (hbase : base.Usable)
    (hbase' : base'.Usable) (hagrees : o.Agrees base base') : o.settings t = o.settings t' := by
  rw [settings_of_usable h hbase, settings_of_usable h' hbase', override_eq_override_iff.2 hagrees]

/-- **Options take precedence over the configuration file**, for every file that holds settings and all options.

* One setting differs from those of the file in exactly what options ask for.
* A command has settings exactly if those of the file are usable and this one is; then this is what it has.
* Settings of the file that are not usable are refused, and named as those of the file.
* So are settings that options make unusable.
* Among files with usable settings, a value that an option replaces has no influence. -/
theorem settings_precedence (h : o.StartsFrom t base) :
    (∀ s, s = o.override base ↔ o.Asks s ∧ o.Agrees base s) ∧
    (∀ s, o.settings t = .ok s ↔ base.Usable ∧ s.Usable ∧ s = o.override base) ∧
    (¬ base.Usable → ∃ path cause, o.config = some path ∧ base.validate = .error cause ∧
      o.settings t = .error (.configFile path cause)) ∧
    (base.Usable → ¬ (o.override base).Usable → ∃ cause, (o.override base).validate = .error cause ∧
      o.settings t = .error (.settings cause)) ∧
    ∀ t' base', o.StartsFrom t' base' → base.Usable → base'.Usable → o.Agrees base base' →
      o.settings t = o.settings t' := by
  refine ⟨fun s => override_eq_iff, fun s => settings_eq_ok_iff h, settings_of_not_usable h,
    fun hbase hover => ?_, fun t' base' h' hbase hbase' hagrees => settings_congr h h' hbase hbase' hagrees⟩
  obtain ⟨cause, hcause⟩ := Settings.exists_validate_error hover
  refine ⟨cause, hcause, ?_⟩
  rw [settings_of_usable h hbase, hcause]
  rfl

/-- A tree with a configuration file. -/
def configuredTree (text : String) : File.Tree where
  entries := [(["c.yaml"], .file text.toUTF8)]

/-- Options with a configuration file and a path prefix. -/
def prefixed : Options := { config := some "c.yaml", apiPrefix := some "/v" }

theorem readText_configuredTree (text : String) : (configuredTree text).readText "c.yaml" = .ok text := by
  have hfound : (configuredTree text).find "c.yaml" = .ok (["c.yaml"], .file text.toUTF8) := rfl
  have hbytes : String.fromUTF8? text.toUTF8 = some text := dif_pos text.isValidUTF8
  simp only [File.Tree.readText, hfound, bind, Except.bind, hbytes]

/-- The command starts from what the text of its file holds. -/
theorem startsFrom_prefixed (hparse : Settings.parse? text = some base) :
    prefixed.StartsFrom (configuredTree text) base :=
  startsFrom_some rfl (readText_configuredTree text) hparse

theorem startsFrom_usable :
    prefixed.StartsFrom (configuredTree "api_prefix: /api\n") { apiPrefix := "/api" } := by
  have hchars : "api_prefix: /api\n".toList =
      ['a', 'p', 'i', '_', 'p', 'r', 'e', 'f', 'i', 'x', ':', ' ', '/', 'a', 'p', 'i', '\n'] := by decide +kernel
  refine startsFrom_prefixed ?_
  unfold Settings.parse? Markup.Tree.read? Markup.glyphs
  rw [hchars]
  decide +kernel

theorem startsFrom_unusable :
    prefixed.StartsFrom (configuredTree "api_prefix: /api/\n") { apiPrefix := "/api/" } := by
  have hchars : "api_prefix: /api/\n".toList =
      ['a', 'p', 'i', '_', 'p', 'r', 'e', 'f', 'i', 'x', ':', ' ', '/', 'a', 'p', 'i', '/',
        '\n'] := by decide +kernel
  refine startsFrom_prefixed ?_
  unfold Settings.parse? Markup.Tree.read? Markup.glyphs
  rw [hchars]
  decide +kernel

/-- The prefix of the file is replaced, whatever usable prefix it is. -/
theorem settings_precedence_prefixed :
    prefixed.StartsFrom (configuredTree "api_prefix: /api\n") { apiPrefix := "/api" } ∧
      prefixed.settings (configuredTree "api_prefix: /api\n") = .ok { apiPrefix := "/v" } := by
  have h := startsFrom_usable
  obtain ⟨-, hok, -⟩ := settings_precedence h
  have hbase : Settings.Usable { apiPrefix := "/api" } := Settings.validate_ok_iff.1 (by decide)
  have hs : Settings.Usable { apiPrefix := "/v" } := Settings.validate_ok_iff.1 (by decide)
  exact ⟨h, (hok _).2 ⟨hbase, hs, rfl⟩⟩

/-- **A prefix that is not usable is refused** although an option replaces it by one that is. -/
theorem not_settings_of_usable_override :
    prefixed.StartsFrom (configuredTree "api_prefix: /api/\n") { apiPrefix := "/api/" } ∧
      (prefixed.override { apiPrefix := "/api/" }).Usable ∧
      prefixed.settings (configuredTree "api_prefix: /api/\n") =
        .error (.configFile "c.yaml" (.settings (.apiPrefix "/api/"))) := by
  have h := startsFrom_unusable
  have hvalidate :
      Settings.validate { apiPrefix := "/api/" } = .error (.settings (.apiPrefix "/api/")) := by decide
  have hbase : ¬ Settings.Usable { apiPrefix := "/api/" } := by
    rw [← Settings.validate_ok_iff, hvalidate]
    intro h
    cases h
  obtain ⟨path, cause, ho, hcause, hrefused⟩ := settings_of_not_usable h hbase
  obtain rfl := Option.some.inj ho
  obtain rfl := Except.error.inj (hvalidate.symm.trans hcause)
  exact ⟨h, Settings.validate_ok_iff.1 (by decide), hrefused⟩

end Command.Options

end ApiCodegen
