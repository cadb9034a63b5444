import Mathlib.Data.List.Induction
import MelScript.Proofs.Server.Notifications

/-! # Changes of the settings

  A change of the settings has three parts: the table, the limiter and the
  settings themselves. It should be made as a whole or not at all, which is
  `Server.AllOrNothing`.

  - A value may ask for more permits than a limiter can have
    (`Json.Value.Overloads`). The limiter breaks on it, after the table has been
    replaced and before the settings are.
  - As long as no such value has come, the limiter has as many permits as the
    settings say (`Server.Intact`). Once it is broken it stays so, and the
    settings go on without it.

  The main result is that nothing else can go wrong: a change of the settings is
  made as a whole, or not at all, exactly when its value is rejected or neither
  it nor any value before it asks for too many permits.
-/

namespace MelScript

/-- A value of settings that asks for more permits than a limiter can have. -/
def Json.Value.Overloads (v : Json.Value) : Prop :=
  ∃ entries n, SettingsSection.ofJson? v = some entries ∧ entries.maxConcurrent = some n ∧
    Limiter.capacity < n

/-- The settings that a notification brings. -/
def Message.settings? : Message → Option Json.Value
  | .ready reply => reply.first?
  | .didConfigure settings reply => (settings.member? Service.settingsName).or reply.first?
  | _ => none

/-- A notification whose settings ask for more permits than a limiter can have. -/
def Message.Overloads (m : Message) : Prop := ∃ v, m.settings? = some v ∧ v.Overloads

/-! ### The number of permits -/

namespace Settings

theorem maxConcurrent_le_of_update? {s next : Settings} {v : Json.Value}
    (hs : s.maxConcurrent ≤ Limiter.capacity) (hv : ¬ v.Overloads)
    (h : s.update? v = some next) : next.maxConcurrent ≤ Limiter.capacity := by
  obtain ⟨entries, hentries, rfl⟩ := Option.map_eq_some_iff.1 h
  unfold afterSection
  dsimp only
  cases hn : entries.maxConcurrent with
  | none => exact hs
  | some n =>
    have hle : n ≤ Limiter.capacity := by
      by_contra hlt
      exact hv ⟨entries, n, hentries, hn, by omega⟩
    by_cases hpos : 0 < n
    · simpa [Option.filter, hpos] using hle
    · simpa [Option.filter, hpos] using hs

/-- A value that asks for too many permits is not rejected. -/
theorem exists_update?_of_overloads (s : Settings) {v : Json.Value} (h : v.Overloads) :
    ∃ next, s.update? v = some next ∧ Limiter.capacity < next.maxConcurrent := by
  obtain ⟨entries, n, hentries, hn, hlt⟩ := h
  refine ⟨s.afterSection entries, by simp [update?, hentries], ?_⟩
  have hpos : 0 < n := by omega
  simpa [afterSection, hn, Option.filter, hpos] using hlt

end Settings

/-! ### One change of the settings -/

namespace Server

/-- The table that a change of its path should bring. -/
inductive Retabled (read : Text → Option Text) (table : CommandTable) (old new : Option Text) :
    CommandTable → Prop where
  /-- The path is the same, and so is the table. -/
  | samePath (same : new.map Path.components = old.map Path.components) :
      Retabled read table old new table
  /-- There is no path any more. -/
  | noPath (moved : new.map Path.components ≠ old.map Path.components) (absent : new = none) :
      Retabled read table old new .bundled
  /-- The file at the path cannot be read. -/
  | unreadable {path : Text} (moved : new.map Path.components ≠ old.map Path.components)
      (present : new = some path) (unread : read path = none) :
      Retabled read table old new .bundled
  /-- The file at the path is no table. -/
  | invalid {path t : Text} {fault : Json.Fault}
      (moved : new.map Path.components ≠ old.map Path.components) (present : new = some path)
      (text : read path = some t) (unparsed : CommandTable.parse t = .error fault) :
      Retabled read table old new .bundled
  /-- The file at the path is a table. -/
  | loaded {path t : Text} {found : CommandTable}
      (moved : new.map Path.components ≠ old.map Path.components) (present : new = some path)
      (text : read path = some t) (parsed : CommandTable.parse t = .ok found) :
      Retabled read table old new found

/-- A change of the settings is made as a whole or not at all. -/
inductive AllOrNothing (read : Text → Option Text) (s : Server) (v : Json.Value) :
    Server × Applied → Prop where
  /-- The value is rejected and everything stays as it is. -/
  | nothing (rejected : s.settings.update? v = none) : AllOrNothing read s v (s, .rejected)
  /-- Settings, limiter and table are those that the value asks for. -/
  | all {next : Settings} {table : CommandTable} (accepted : s.settings.update? v = some next)
      (retabled : Retabled read s.table s.settings.tablePath next.tablePath table) :
      AllOrNothing read s v
        ({ s with settings := next, limiter := .permits next.maxConcurrent, table }, .accepted)

/-- What is settled as a whole has not failed on the way. -/
theorem AllOrNothing.not_crashed {read : Text → Option Text} {s : Server} {v : Json.Value}
    {result : Server × Applied} (h : AllOrNothing read s v result) : result.2 ≠ .crashed := by
  cases h <;> simp

theorem AllOrNothing.not_broken {read : Text → Option Text} {s : Server} {v : Json.Value}
    {result : Server × Applied} (h : AllOrNothing read s v result)
    (haccepted : result.2 = .accepted) : result.1.limiter ≠ .broken := by
  cases h with
  | nothing _ => cases haccepted
  | all _ _ => simp

theorem retabled_reloadTable (read : Text → Option Text) (s : Server) (next : Settings) :
    Retabled read s.table s.settings.tablePath next.tablePath
      (s.reloadTable read next).table := by
  unfold reloadTable
  split
  · next hsame => exact .samePath hsame
  · next hmoved =>
    dsimp only
    cases hpath : next.tablePath with
    | none => exact .noPath (hpath ▸ hmoved) rfl
    | some path =>
      rw [hpath] at hmoved
      cases hread : read path with
      | none =>
        have htable : tableAt read (some path) = .bundled := by
          simp [tableAt, CommandTable.load, hread]
        exact htable ▸ .unreadable hmoved rfl hread
      | some t =>
        cases hparse : CommandTable.parse t with
        | error fault =>
          have htable : tableAt read (some path) = .bundled := by
            simp [tableAt, CommandTable.load, hread, hparse]
          exact htable ▸ .invalid hmoved rfl hread hparse
        | ok found =>
          have htable : tableAt read (some path) = found := by
            simp [tableAt, CommandTable.load, hread, hparse]
          exact htable ▸ .loaded hmoved rfl hread hparse

/-- Loading a table leaves all else as it is. -/
theorem reloadTable_eq (read : Text → Option Text) (s : Server) (next : Settings) :
    s.reloadTable read next = { s with table := (s.reloadTable read next).table } := by
  unfold reloadTable
  split <;> rfl

/-- The limiter has as many permits as the settings say. -/
structure Intact (s : Server) : Prop where
  limiter : s.limiter = .permits s.settings.maxConcurrent
  fits : s.settings.maxConcurrent ≤ Limiter.capacity

theorem intact_initial : Intact .initial := ⟨rfl, by decide⟩

section

variable {s : Server} {next : Settings} {v : Json.Value} (read : Text → Option Text)

theorem applySettings_of_rejected (h : s.settings.update? v = none) :
    s.applySettings read v = (s, .rejected) := by
  unfold applySettings
  rw [h]

/-- An intact limiter is replaced by one with the new number of permits, if it can have them. -/
theorem applySettings_of_fits (hs : s.Intact) (h : s.settings.update? v = some next)
    (hfits : next.maxConcurrent ≤ Limiter.capacity) :
    s.applySettings read v =
      ({ s with settings := next, limiter := .permits next.maxConcurrent,
                table := (s.reloadTable read next).table }, .accepted) := by
  have hlimiter : s.renewLimiter? next = some (.permits next.maxConcurrent) := by
    unfold renewLimiter?
    rw [hs.limiter]
    -- A limiter whose number does not change is left alone, but it has this number already.
    by_cases hsame : next.maxConcurrent = s.settings.maxConcurrent
    · rw [if_pos hsame, hsame]
    · simp [hsame, hfits]
  unfold applySettings
  rw [h]
  dsimp only
  rw [hlimiter, reloadTable_eq]

/-- A number of permits that a limiter cannot have breaks it. The table is replaced all the same, and
the settings stay. -/
theorem applySettings_of_too_many (hs : s.Intact) (h : s.settings.update? v = some next)
    (hmany : Limiter.capacity < next.maxConcurrent) :
    s.applySettings read v =
      ({ s with limiter := .broken, table := (s.reloadTable read next).table }, .crashed) := by
  -- The number in force fits, so the new one differs from it and the limiter is to be renewed.
  have hother : next.maxConcurrent ≠ s.settings.maxConcurrent := by
    have hfits := hs.fits
    omega
  have hlimiter : s.renewLimiter? next = none := by
    unfold renewLimiter?
    rw [if_neg hother, hs.limiter]
    simp [hmany]
  unfold applySettings
  rw [h]
  dsimp only
  rw [hlimiter, reloadTable_eq]

/-- A broken limiter stays as it is. -/
theorem applySettings_of_broken (hs : s.limiter = .broken) (h : s.settings.update? v = some next) :
    s.applySettings read v =
      ({ s with settings := next, table := (s.reloadTable read next).table }, .accepted) := by
  have hlimiter : s.renewLimiter? next = some .broken := by
    unfold renewLimiter?
    rw [hs, ite_self]
  unfold applySettings
  rw [h]
  dsimp only
  rw [hlimiter, reloadTable_eq, ← hs]

theorem intact_applySettings (hs : s.Intact) (hv : ¬ v.Overloads) :
    (s.applySettings read v).1.Intact := by
  cases h : s.settings.update? v with
  | none =>
    rw [applySettings_of_rejected read h]
    exact hs
  | some next =>
    have hfits := Settings.maxConcurrent_le_of_update? hs.fits hv h
    rw [applySettings_of_fits read hs h hfits]
    exact ⟨rfl, hfits⟩

theorem broken_applySettings_of_overloads (hs : s.Intact) (hv : v.Overloads) :
    (s.applySettings read v).1.limiter = .broken := by
  obtain ⟨next, h, hmany⟩ := s.settings.exists_update?_of_overloads hv
  rw [applySettings_of_too_many read hs h hmany]

theorem broken_applySettings (hs : s.limiter = .broken) :
    (s.applySettings read v).1.limiter = .broken := by
  cases h : s.settings.update? v with
  | none =>
    rw [applySettings_of_rejected read h]
    exact hs
  | some next =>
    rw [applySettings_of_broken read hs h]
    exact hs

/-- With an intact limiter, only a value that asks for too many permits is not settled as a
whole. -/
theorem allOrNothing_iff_of_intact (hs : s.Intact) :
    s.AllOrNothing read v (s.applySettings read v) ↔ ¬ v.Overloads := by
  constructor
  · intro hall hv
    obtain ⟨next, h, hmany⟩ := s.settings.exists_update?_of_overloads hv
    rw [applySettings_of_too_many read hs h hmany] at hall
    exact hall.not_crashed rfl
  · intro hv
    cases h : s.settings.update? v with
    | none =>
      rw [applySettings_of_rejected read h]
      exact .nothing h
    | some next =>
      have hfits := Settings.maxConcurrent_le_of_update? hs.fits hv h
      rw [applySettings_of_fits read hs h hfits]
      exact .all h (retabled_reloadTable read s next)

/-- With a broken limiter, only what is rejected is settled as a whole. -/
theorem allOrNothing_iff_of_broken (hs : s.limiter = .broken) :
    s.AllOrNothing read v (s.applySettings read v) ↔ s.settings.update? v = none := by
  constructor
  · intro hall
    cases h : s.settings.update? v with
    | none => rfl
    | some next =>
      -- The settings come into force, but the limiter has no permits at all.
      rw [applySettings_of_broken read hs h] at hall
      exact absurd hs (hall.not_broken rfl)
  · intro h
    rw [applySettings_of_rejected read h]
    exact .nothing h

end

/-- Table, settings and limiter are the same. -/
structure SameConfiguration (s s' : Server) : Prop where
  table : s'.table = s.table
  settings : s'.settings = s.settings
  limiter : s'.limiter = s.limiter

theorem SameConfiguration.refl (s : Server) : s.SameConfiguration s := ⟨rfl, rfl, rfl⟩

theorem SameConfiguration.intact {s s' : Server} (h : s.SameConfiguration s') (hs : s.Intact) :
    s'.Intact where
  limiter := by rw [h.limiter, h.settings, hs.limiter]
  fits := by rw [h.settings]; exact hs.fits

theorem sameConfiguration_finishOutline (s : Server) (uri : FileUri) (request : OutlineRequest) :
    s.SameConfiguration (s.finishOutline uri request).1 := by
  cases request with
  | settled answer => exact .refl s
  | computing text version revision =>
    unfold finishOutline keepOutline
    dsimp only
    split
    · exact .refl s
    · split
      · exact ⟨rfl, rfl, rfl⟩
      · exact .refl s

theorem sameConfiguration_complete (s : Server) (uri : FileUri) (p : Position)
    (trigger : Option Text) : s.SameConfiguration (s.complete uri p trigger).1 := by
  unfold complete
  split
  · exact .refl s
  · exact ⟨rfl, rfl, rfl⟩

end Server

/-! ### One event -/

namespace Service

/-- Settings that are heeded are put into force. -/
theorem step_of_settings {s : Service} {e : Event} {m : Message} {v : Json.Value}
    (h : s.phase.heeds? e = some m) (hv : m.settings? = some v) :
    (s.step e).1.server = (s.server.applySettings s.files.read? v).1 := by
  rw [step_of_heeds h]
  cases m with
  | ready reply =>
    have hreply : reply.first? = some v := hv
    simp only [handle, pullSettings, hreply]
    rfl
  | didConfigure settings reply =>
    cases hmember : settings.member? settingsName with
    | some v' =>
      simp only [Message.settings?, hmember, Option.some_or, Option.some.injEq] at hv
      subst hv
      simp only [handle, hmember]
      rfl
    | none =>
      simp only [Message.settings?, hmember, Option.none_or] at hv
      simp only [handle, hmember, pullSettings, hv]
      rfl
  | _ => cases hv

theorem sameConfiguration_handle {s : Service} {m : Message} (h : m.settings? = none) :
    s.server.SameConfiguration (s.handle m).1.server := by
  cases m with
  | ready reply =>
    have hreply : reply.first? = none := h
    simp only [handle, pullSettings, hreply]
    exact .refl _
  | didConfigure settings reply =>
    simp only [Message.settings?, Option.or_eq_none_iff] at h
    simp only [handle, pullSettings, h.1, h.2]
    exact .refl _
  | didOpen uri text version => exact ⟨rfl, rfl, rfl⟩
  | didChange uri version edits => exact ⟨rfl, rfl, rfl⟩
  | didClose uri => exact ⟨rfl, rfl, rfl⟩
  | outline uri => exact Server.sameConfiguration_finishOutline _ _ _
  | complete uri p trigger => exact Server.sameConfiguration_complete _ _ _ _
  | _ => exact .refl _

/-- A request is handled or refused. It brings no settings in either case. -/
theorem sameConfiguration_receive_request {s : Service} {m : Message} (n : Nat)
    (h : m.isRequest = true) : s.server.SameConfiguration (s.receive n m).1.server := by
  have hnone : m.settings? = none := by
    cases m with
    | ready reply => cases h
    | didConfigure settings reply => cases h
    | _ => rfl
  unfold receive
  split
  · exact .refl _
  · exact .refl _
  · split
    · unfold refuseNumber
      split <;> exact .refl _
    · exact sameConfiguration_handle hnone
  · exact .refl _

theorem sameConfiguration_finish (s : Service) (n : Nat) :
    s.server.SameConfiguration (s.finish n).1.server := by
  unfold finish
  split
  · exact .refl _
  · exact Server.sameConfiguration_finishOutline _ _ _

/-- An event that brings no settings leaves table, settings and limiter alone. -/
theorem step_sameConfiguration {s : Service} {e : Event}
    (h : ∀ m, s.phase.heeds? e = some m → m.settings? = none) :
    s.server.SameConfiguration (s.step e).1.server := by
  cases e with
  | receive n m =>
    show s.server.SameConfiguration (s.receive n m).1.server
    cases hrequest : m.isRequest with
    | true => exact sameConfiguration_receive_request n hrequest
    | false =>
      -- A notification that is not heeded may bring settings, but it is dropped.
      rcases s.phase.heeds?_receive n m with hnone | hheeds
      · rw [server_receive_of_not_heeded hrequest hnone]
        exact .refl _
      · have hstep : s.receive n m = s.handle m := step_of_heeds hheeds
        rw [hstep]
        exact sameConfiguration_handle (h m hheeds)
  | startOutline n uri =>
    show s.server.SameConfiguration (s.start n uri).1.server
    rw [start_frame]
    exact .refl _
  | finishOutline n => exact s.sameConfiguration_finish n
  | write path contents => exact .refl _

/-- An event puts settings into force, or it leaves table, settings and limiter alone. -/
theorem step_configuration (s : Service) (e : Event) :
    (∃ m v, s.phase.heeds? e = some m ∧ m.settings? = some v ∧
      (s.step e).1.server = (s.server.applySettings s.files.read? v).1) ∨
      s.server.SameConfiguration (s.step e).1.server := by
  by_cases hv : ∃ m v, s.phase.heeds? e = some m ∧ m.settings? = some v
  · obtain ⟨m, v, hheeds, hv⟩ := hv
    exact .inl ⟨m, v, hheeds, hv, step_of_settings hheeds hv⟩
  · refine .inr (step_sameConfiguration ?_)
    intro m hheeds
    cases hnone : m.settings? with
    | none => rfl
    | some v => exact absurd ⟨m, v, hheeds, hnone⟩ hv

/-! ### Runs -/

theorem intact_step {s : Service} {e : Event} (hs : s.server.Intact)
    (h : ∀ m, s.phase.heeds? e = some m → ¬ m.Overloads) : (s.step e).1.server.Intact := by
  rcases s.step_configuration e with ⟨m, v, hheeds, hv, hserver⟩ | hsame
  · rw [hserver]
    exact Server.intact_applySettings _ hs fun hover => h m hheeds ⟨v, hv, hover⟩
  · exact hsame.intact hs

theorem broken_step {s : Service} (hs : s.server.limiter = .broken) (e : Event) :
    (s.step e).1.server.limiter = .broken := by
  rcases s.step_configuration e with ⟨m, v, _, _, hserver⟩ | hsame
  · rw [hserver]
    exact Server.broken_applySettings _ hs
  · rw [hsame.limiter]
    exact hs

theorem broken_step_of_overloads {s : Service} {e : Event} {m : Message} (hs : s.server.Intact)
    (hheeds : s.phase.heeds? e = some m) (hm : m.Overloads) :
    (s.step e).1.server.limiter = .broken := by
  obtain ⟨v, hv, hover⟩ := hm
  rw [step_of_settings hheeds hv]
  exact Server.broken_applySettings_of_overloads _ hs hover

/-- The limiter is intact until settings ask for too many permits, and broken from then on. -/
theorem limiter_after (files : FileTree) (es : List Event) :
    (∀ m ∈ heeded es, ¬ m.Overloads) ∧ (after files es).server.Intact ∨
      (∃ m ∈ heeded es, m.Overloads) ∧ (after files es).server.limiter = .broken := by
  induction es using List.reverseRecOn with
  | nil =>
    refine .inl ⟨?_, Server.intact_initial⟩
    intro m hm
    cases hm
  | append_singleton es e ih =>
    rw [after_concat, heeded_concat files es e]
    rcases ih with ⟨hnone, hintact⟩ | ⟨⟨m, hm, hover⟩, hbroken⟩
    · -- Intact so far: the last event decides.
      by_cases hlast : ∃ m, (after files es).phase.heeds? e = some m ∧ m.Overloads
      · obtain ⟨m, hheeds, hover⟩ := hlast
        refine .inr ⟨⟨m, ?_, hover⟩, broken_step_of_overloads hintact hheeds hover⟩
        simp [hheeds]
      · have hquiet : ∀ m, (after files es).phase.heeds? e = some m → ¬ m.Overloads :=
          fun m hheeds hover => hlast ⟨m, hheeds, hover⟩
        refine .inl ⟨?_, intact_step hintact hquiet⟩
        intro m hm
        rcases List.mem_append.1 hm with hm | hm
        · exact hnone m hm
        · exact hquiet m (Option.mem_toList.1 hm)
    · exact .inr ⟨⟨m, List.mem_append_left _ hm, hover⟩, broken_step hbroken e⟩

/-- **A change of the settings is made as a whole, or not at all, exactly when its value is rejected
or neither it nor any value before it asks for more permits than a limiter can have.** -/
theorem settings_all_or_nothing_iff (files : FileTree) (es : List Event) (v : Json.Value) :
    let s := after files es
    s.server.AllOrNothing s.files.read? v (s.server.applySettings s.files.read? v) ↔
      s.server.settings.update? v = none ∨
        (∀ m ∈ heeded es, ¬ m.Overloads) ∧ ¬ v.Overloads := by
  intro s
  rcases limiter_after files es with ⟨hnone, hintact⟩ | ⟨⟨m, hm, hover⟩, hbroken⟩
  · rw [Server.allOrNothing_iff_of_intact _ hintact]
    constructor
    · intro hv
      exact .inr ⟨hnone, hv⟩
    · rintro (hrejected | ⟨_, hv⟩)
      · -- A value that is rejected asks for nothing.
        intro hv
        obtain ⟨next, hnext, _⟩ := s.server.settings.exists_update?_of_overloads hv
        rw [hrejected] at hnext
        cases hnext
      · exact hv
  · rw [Server.allOrNothing_iff_of_broken _ hbroken]
    constructor
    · exact .inl
    · rintro (hrejected | ⟨hnone, _⟩)
      · exact hrejected
      · exact absurd hover (hnone m hm)

/-- Settings with another table and one permit too many: the table is replaced, the settings are
not, and the limiter is lost. -/
theorem oversized_limit_replaces_table_alone :
    let s := after {} [.receive 0 .handshake, .write "t.json".toList (.text "[]".toList)]
    let v : Json.Value := .object
      [("reference".toList, .object [("path".toList, .string "t.json".toList)]),
        ("performance".toList, .object [("maxConcurrent".toList, .nat 0x2000000000000000)])]
    let result := s.server.applySettings s.files.read? v
    result.1.table = .empty ∧ result.1.settings = {} ∧ result.1.limiter = .broken ∧
      ¬ s.server.AllOrNothing s.files.read? v result := by
  intro s v result
  have hcrashed : result.2 = .crashed := by decide +kernel
  refine ⟨?_, ?_, ?_, fun h => h.not_crashed hcrashed⟩
  · decide +kernel
  · decide +kernel
  · decide +kernel

end Service

end MelScript
