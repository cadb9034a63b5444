import Mathlib.Data.List.Induction
import MelScript.Server.Settings

/-! # The settings after a history of values

  A client sends one value after the other, and a rejected one changes nothing.
  What is left of the history in the end:

  - Every accepted value sets the help folder, the path of the table and the
    logging anew, to their defaults where it says nothing about them. So these
    three are what the last accepted value alone makes of the settings at the
    start.
  - The number of computations stays unless a value asks for a positive one. So
    it goes back to the last value that did, however many came after it.

  `Settings.Collapsed` says this of a history and the settings after it, and one
  value more keeps it true (`Collapsed.heed`). A value also leaves the settings
  usable (`Usable.heed`), whatever it says.
-/

namespace MelScript.Settings

open Json

/-- The settings after a value. A rejected one leaves them as they are. -/
def heed (s : Settings) (v : Value) : Settings := (s.update? v).getD s

/-- The settings after values, from those at the start. -/
def afterAll (values : List Value) : Settings := values.foldl heed {}

/-- What the last accepted value alone makes of the settings at the start; these settings when no
value was accepted. -/
def lastAlone (values : List Value) : Settings :=
  (values.filterMap fun v => ({} : Settings).update? v).getLast?.getD {}

/-- The positive number of computations that an accepted value asks for. -/
def asked? (v : Value) : Option Nat :=
  (SettingsSection.ofJson? v).bind fun entries => entries.maxConcurrent.filter fun n => 0 < n

/-- The settings are those that are left of a history. -/
structure Collapsed (values : List Value) (s : Settings) : Prop where
  verbose : s.verbose = (lastAlone values).verbose
  helpBase : s.helpBase = (lastAlone values).helpBase
  tablePath : s.tablePath = (lastAlone values).tablePath
  maxConcurrent : s.maxConcurrent = (values.filterMap asked?).getLast?.getD 2

/-- Something may be computed, the help has a folder, and the path of the table, if there is one, is
not empty. -/
structure Usable (s : Settings) : Prop where
  maxConcurrent : 1 ≤ s.maxConcurrent
  helpBase : s.helpBase.allBlank = false
  tablePath : s.tablePath ≠ some []

/-! ### One value -/

section

variable {s : Settings} {v : Value} {values : List Value} {entries : SettingsSection}

theorem heed_of_rejected (h : SettingsSection.ofJson? v = none) : s.heed v = s := by
  simp [heed, update?, h]

theorem heed_of_accepted (h : SettingsSection.ofJson? v = some entries) :
    s.heed v = s.afterSection entries := by
  simp [heed, update?, h]

/-- Of what a history gives, the last value counts if it gives anything. -/
theorem getLast?_filterMap_concat {α : Type} (f : Value → Option α) (values : List Value)
    (v : Value) :
    ((values ++ [v]).filterMap f).getLast? = (f v).or (values.filterMap f).getLast? := by
  rw [List.filterMap_append, List.getLast?_append]
  cases h : f v <;> simp [h]

/-- A rejected value can be left out of the history. -/
theorem Collapsed.concat_of_rejected (h : Collapsed values s)
    (hv : SettingsSection.ofJson? v = none) : Collapsed (values ++ [v]) s := by
  have hupdate : ({} : Settings).update? v = none := by simp [update?, hv]
  have hasked : asked? v = none := by simp [asked?, hv]
  have halone : lastAlone (values ++ [v]) = lastAlone values := by
    unfold lastAlone
    rw [getLast?_filterMap_concat, hupdate, Option.none_or]
  refine ⟨?_, ?_, ?_, ?_⟩
  · rw [halone]
    exact h.verbose
  · rw [halone]
    exact h.helpBase
  · rw [halone]
    exact h.tablePath
  · rw [getLast?_filterMap_concat, hasked, Option.none_or]
    exact h.maxConcurrent

/-- An accepted value sets three of the entries anew, wherever the settings came from. -/
theorem Collapsed.concat_of_accepted (h : Collapsed values s)
    (hv : SettingsSection.ofJson? v = some entries) :
    Collapsed (values ++ [v]) (s.afterSection entries) := by
  have halone : lastAlone (values ++ [v]) = ({} : Settings).afterSection entries := by
    unfold lastAlone
    rw [getLast?_filterMap_concat]
    simp [update?, hv]
  have hasked : asked? v = entries.maxConcurrent.filter fun n => 0 < n := by
    simp [asked?, hv]
  refine ⟨?_, ?_, ?_, ?_⟩
  · rw [halone]
    rfl
  · rw [halone]
    rfl
  · rw [halone]
    rfl
  · -- The number that was there is that of the history, and it stays if the value asks for none.
    rw [getLast?_filterMap_concat, hasked]
    show (entries.maxConcurrent.filter fun n => 0 < n).getD s.maxConcurrent = _
    rw [h.maxConcurrent]
    cases entries.maxConcurrent.filter fun n => 0 < n with
    | none => rfl
    | some n => rfl

/-- One value more. -/
theorem Collapsed.heed (h : Collapsed values s) (v : Value) :
    Collapsed (values ++ [v]) (s.heed v) := by
  cases hv : SettingsSection.ofJson? v with
  | none =>
    rw [heed_of_rejected hv]
    exact h.concat_of_rejected hv
  | some entries =>
    rw [heed_of_accepted hv]
    exact h.concat_of_accepted hv

/-- No section makes usable settings useless. -/
theorem Usable.afterSection (h : s.Usable) (entries : SettingsSection) :
    (s.afterSection entries).Usable := by
  refine ⟨?_, ?_, ?_⟩
  · show 1 ≤ (entries.maxConcurrent.filter fun n => 0 < n).getD s.maxConcurrent
    cases hn : entries.maxConcurrent.filter fun n => 0 < n with
    | none => exact h.maxConcurrent
    | some n =>
      have hpos : 0 < n := by simpa using (Option.filter_eq_some_iff.1 hn).2
      exact hpos
  · show ((entries.urlBase.filter fun base => !base.allBlank).getD defaultHelpBase).allBlank = false
    cases hbase : entries.urlBase.filter fun base => !base.allBlank with
    | none => decide
    | some base =>
      have hfull := (Option.filter_eq_some_iff.1 hbase).2
      simpa using hfull
  · show entries.path.filter (fun path => !path.isEmpty) ≠ some []
    intro hpath
    have hfull := (Option.filter_eq_some_iff.1 hpath).2
    cases hfull

theorem Usable.heed (h : s.Usable) (v : Value) : (s.heed v).Usable := by
  cases hv : SettingsSection.ofJson? v with
  | none =>
    rw [heed_of_rejected hv]
    exact h
  | some entries =>
    rw [heed_of_accepted hv]
    exact h.afterSection entries

end

/-! ### All values -/

theorem afterAll_concat (values : List Value) (v : Value) :
    afterAll (values ++ [v]) = (afterAll values).heed v := by
  simp [afterAll]

theorem collapsed_afterAll (values : List Value) : Collapsed values (afterAll values) := by
  induction values using List.reverseRecOn with
  | nil => exact ⟨rfl, rfl, rfl, rfl⟩
  | append_singleton values v ih =>
    rw [afterAll_concat]
    exact ih.heed v

theorem usable_afterAll (values : List Value) : (afterAll values).Usable := by
  induction values using List.reverseRecOn with
  | nil => exact ⟨by decide, by decide, by decide⟩
  | append_singleton values v ih =>
    rw [afterAll_concat]
    exact ih.heed v

/-- **A history of settings collapses.** Logging, help folder and path of the table are those that
the last accepted value alone gives, and the number of computations is the last positive one that an
accepted value asked for, or two. The settings are usable after every part of the history. -/
theorem history_collapses (values : List Value) :
    let settings := afterAll values
    settings.verbose = (lastAlone values).verbose ∧
      settings.helpBase = (lastAlone values).helpBase ∧
      settings.tablePath = (lastAlone values).tablePath ∧
      settings.maxConcurrent = (values.filterMap asked?).getLast?.getD 2 ∧
      ∀ past, past <+: values → (afterAll past).Usable := by
  intro settings
  have h := collapsed_afterAll values
  exact ⟨h.verbose, h.helpBase, h.tablePath, h.maxConcurrent, fun past _ => usable_afterAll past⟩

/-- The number of computations is kept through a zero, and a value that is rejected for one of its
entries sets none of the others. -/
theorem history_with_rejected_value :
    let group (name entry : String) (v : Value) : Text × Value :=
      (name.toList, .object [(entry.toList, v)])
    let first := Value.object [group "logging" "verbose" (.bool true),
      group "performance" "maxConcurrent" (.nat 5)]
    let second := Value.object [group "help" "urlBase" (.string "h".toList),
      group "performance" "maxConcurrent" (.nat 0)]
    let rejected := Value.object [group "logging" "verbose" (.string "yes".toList),
      group "performance" "maxConcurrent" (.nat 9)]
    let values := [first, second, rejected]
    [first, second] <+: values ∧ (afterAll [first, second]).Usable ∧
      afterAll values = ⟨false, "h".toList, none, 5⟩ := by
  intro group first second rejected values
  obtain ⟨_, _, _, _, husable⟩ := history_collapses values
  have hpast : [first, second] <+: values := ⟨[rejected], rfl⟩
  exact ⟨hpast, husable _ hpast, by decide +kernel⟩

end MelScript.Settings
