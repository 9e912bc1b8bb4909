import InfraLint.Proofs.Keys
import InfraLint.Proofs.Playback

/-!
Events that can be written. A style takes a part of an event or not: all that is written has to be
put into words, on the console what stands below the line has to be text, and in a chosen style
what comes as a record of the logger has to be nothing. Main fact: an event is put into words
exactly if its style takes each of its parts. Parts that every style takes do no harm, and a log
that holds only such parts is ready for events of such parts and stays so.
-/
namespace InfraLint

namespace Style

/-- Lines in the style are for the console. -/
def OnConsole : Style → Prop
  | .plain => True
  | .chosen format _ => format = .console

/-- The part can be written in the style. What asks for the error in progress is not written. -/
structure Takes (style : Style) (p : String × Datum) : Prop where
  record : style ≠ .plain → p.1 = Event.recordKey → p.2 = .null
  below : style.OnConsole → p.1 = Event.stackKey ∨ p.1 = Event.exceptionKey →
    p.2 = .null ∨ ∃ s, p.2 = .text s
  words : p.1 ≠ Event.errorRequest → p.2.Spellable

theorem takes_text (style : Style) {key : String} (h : key ≠ Event.recordKey) (s : String) :
    style.Takes (key, .text s) where
  record _ hkey := absurd hkey h
  below _ _ := Or.inr ⟨s, rfl⟩
  words _ := trivial

theorem takes_of_spellable (style : Style) {key : String}
    (h : key ∉ [Event.recordKey, Event.stackKey, Event.exceptionKey]) {d : Datum}
    (hd : d.Spellable) : style.Takes (key, d) := by
  simp only [List.mem_cons, List.not_mem_nil, or_false, not_or] at h
  exact ⟨fun _ hkey => absurd hkey h.1, fun _ hkey => absurd hkey (not_or.mpr h.2), fun _ => hd⟩

end Style

namespace Event

variable {parts : Entries Datum}

theorem exists_fieldText_iff {d : Datum} : (∃ s, fieldText d = .ok s) ↔ d.Spellable := by
  cases d with
  | text s =>
    refine ⟨fun _ => trivial, fun _ => ?_⟩
    unfold fieldText
    dsimp only
    split <;> exact ⟨_, rfl⟩
  | _ => exact Datum.exists_spell_iff _

/-- A part with a column of its own is put into words if any datum can be. -/
theorem exists_column_iff {c : String × (Datum → Except TooLong String)} (hc : c ∈ columns)
    (d : Datum) : (∃ s, c.2 d = .ok s) ↔ d.Spellable := by
  simp only [columns, List.mem_cons, List.not_mem_nil, or_false] at hc
  rcases hc with rfl | rfl | rfl | rfl | rfl | rfl
  · exact exists_map_ok_iff.trans exists_fieldText_iff
  · exact d.exists_display_iff
  · exact exists_map_ok_iff.trans d.exists_display_iff
  · exact exists_map_ok_iff.trans d.exists_display_iff
  · exact exists_map_ok_iff.trans d.exists_display_iff
  · exact exists_map_ok_iff.trans d.exists_display_iff

theorem not_mem_aside_of_column {c : String × (Datum → Except TooLong String)}
    (hc : c ∈ columns) : c.1 ∉ aside := by
  simp only [columns, List.mem_cons, List.not_mem_nil, or_false] at hc
  rcases hc with rfl | rfl | rfl | rfl | rfl | rfl <;> decide

/-- The line itself can be had if all parts that it does not leave out can be put into words. -/
theorem exists_shown_iff (hd : parts.Distinct) :
    (∃ texts, shown parts = .ok texts) ↔ ∀ p ∈ parts, p.1 ∉ aside → p.2.Spellable := by
  unfold shown
  rw [Text.exists_each_iff, List.forall_mem_append]
  constructor
  · rintro ⟨hfixed, hothers⟩ ⟨key, d⟩ hp haside
    -- A part shows in its column if it has one, else among those that follow by name.
    by_cases hcolumn : key ∈ columns.map (·.1)
    · obtain ⟨c, hc, rfl⟩ := List.mem_map.mp hcolumn
      refine (exists_column_iff hc d).mp (hfixed _ (List.mem_filterMap.mpr ⟨c, hc, ?_⟩))
      rw [hd.get?_of_mem hp]
      rfl
    · have hreserved : key ∉ reserved := by
        rw [reserved, List.mem_append]
        exact not_or.mpr ⟨hcolumn, haside⟩
      refine exists_fieldText_iff.mp (exists_map_ok_iff.mp (hothers _ (List.mem_map_of_mem
        (Entries.mem_byKey.mpr (List.mem_filter.mpr ⟨hp, ?_⟩)))))
      simpa using hreserved
  · intro h
    refine ⟨fun text htext => ?_, fun text htext => ?_⟩
    · obtain ⟨c, hc, hfound⟩ := List.mem_filterMap.mp htext
      obtain ⟨d, hd, rfl⟩ := Option.map_eq_some_iff.mp hfound
      exact (exists_column_iff hc d).mpr
        (h _ (Entries.mem_of_get? hd) (not_mem_aside_of_column hc))
    · obtain ⟨p, hp, rfl⟩ := List.mem_map.mp htext
      obtain ⟨hmem, hother⟩ := List.mem_filter.mp (Entries.mem_byKey.mp hp)
      have hreserved : p.1 ∉ reserved := by simpa using hother
      refine exists_map_ok_iff.mpr (exists_fieldText_iff.mpr (h p hmem fun haside => hreserved ?_))
      exact List.mem_append_right _ haside

theorem exists_below_iff {name : String} : (∃ text, below parts name = .ok text) ↔
    ∀ d, parts.get? name = some d → d = .null ∨ ∃ s, d = .text s := by
  unfold below
  cases parts.get? name with
  | none => simp
  | some d => cases d <;> simp

theorem exists_trailer_iff : (∃ rest, trailer parts = .ok rest) ↔
    (∃ text, below parts stackKey = .ok text) ∧ ∃ text, below parts exceptionKey = .ok text := by
  unfold trailer
  simp only [exists_bind_ok_iff]
  constructor
  · rintro ⟨stack, hstack, exception, hexception, -⟩
    exact ⟨⟨stack, hstack⟩, exception, hexception⟩
  · rintro ⟨⟨stack, hstack⟩, exception, hexception⟩
    refine ⟨stack, hstack, exception, hexception, ?_⟩
    cases stack <;> exact exists_pure_ok _

/-- An event is put into words for the console if each of its parts can be written there, and only
then. -/
theorem exists_consoleLine_iff (hd : parts.Distinct) :
    (∃ line, consoleLine parts = .ok line) ↔ ∀ p ∈ parts, Style.plain.Takes p := by
  have hboth : (∃ line, consoleLine parts = .ok line) ↔
      (∃ texts, shown parts = .ok texts) ∧ ∃ rest, trailer parts = .ok rest := by
    unfold consoleLine
    simp only [exists_bind_ok_iff, exists_mapError_ok_iff, exists_pure_ok, and_true,
      exists_and_right]
  rw [hboth, exists_shown_iff hd, exists_trailer_iff, exists_below_iff, exists_below_iff]
  constructor
  · rintro ⟨hwords, hstack, hexception⟩ ⟨key, d⟩ hp
    have hget := hd.get?_of_mem hp
    have hbelow : key = stackKey ∨ key = exceptionKey → d = .null ∨ ∃ s, d = .text s := by
      rintro (rfl | rfl)
      · exact hstack d hget
      · exact hexception d hget
    refine ⟨fun hplain => absurd rfl hplain, fun _ => hbelow, fun hasked => ?_⟩
    -- What the line leaves out stands below it, as a text or not at all.
    by_cases haside : key ∈ aside
    · simp only [aside, List.mem_cons, List.not_mem_nil, or_false] at haside
      rcases hbelow (haside.imp_right fun h => h.resolve_right hasked) with rfl | ⟨s, rfl⟩
      · trivial
      · trivial
    · exact hwords _ hp haside
  · intro h
    refine ⟨fun p hp haside => (h p hp).words fun hasked => haside ?_, fun d hget => ?_,
      fun d hget => ?_⟩
    · rw [hasked]
      decide
    · exact (h _ (Entries.mem_of_get? hget)).below trivial (Or.inl rfl)
    · exact (h _ (Entries.mem_of_get? hget)).below trivial (Or.inr rfl)

theorem exists_jsonLine_iff :
    (∃ line, jsonLine parts = .ok line) ↔ ∀ p ∈ parts, p.2.Spellable := by
  rw [← Datum.spellableIn_iff, ← Datum.Spellable, ← Datum.exists_spell_iff (w := Json.words)]
  exact exists_mapError_ok_iff

theorem checkRecord_eq_ok_iff :
    checkRecord parts = .ok () ↔ ∀ d, parts.get? recordKey = some d → d = .null := by
  unfold checkRecord
  cases parts.get? recordKey with
  | none => simp
  | some d => cases d <;> simp

/-- What is true of the parts that are offered, and stays true when a part that is no record is put
as text and when a part is taken out, is true of all parts. -/
theorem parts_of_offered {P : Entries Datum → Prop}
    (hput : ∀ entries key s, key ≠ recordKey → P entries → P (entries.put key (.text s)))
    (herase : ∀ entries key, P entries → P (entries.erase key))
    (e : Event) {carried context : Entries Datum}
    (hoffered : P (context.foldl (fun acc v => acc.putIfAbsent v.1 v.2)
      ((carried.putAll e.fields).put "event" (.text e.name))))
    (logger : Option String) (timestamp : Bool) : P (e.parts carried context logger timestamp) := by
  have hleveled := hput _ "level" e.level.word (by decide) hoffered
  have hrest : ∀ named, P named →
      let stamped := if timestamp then named.put "timestamp" (.text timeStamp) else named
      P (if (stamped.get? stackRequest).any Datum.holds then
        (stamped.erase stackRequest).put stackKey (.text callStack)
      else stamped.erase stackRequest) := by
    intro named hnamed stamped
    have hstamped : P stamped := by
      unfold stamped
      split
      · exact hput _ _ _ (by decide) hnamed
      · exact hnamed
    split
    · exact hput _ _ _ (by decide) (herase _ _ hstamped)
    · exact herase _ _ hstamped
  unfold parts
  cases logger with
  | none => exact hrest _ hleveled
  | some name => exact hrest _ (hput _ "logger" name (by decide) hleveled)

end Event

def Style.TakesAll (style : Style) (entries : Entries Datum) : Prop :=
  ∀ p ∈ entries, style.Takes p

namespace Style.TakesAll

variable {style : Style} {entries more : Entries Datum}

theorem nil : style.TakesAll [] := fun _ he => absurd he List.not_mem_nil

theorem put (h : style.TakesAll entries) {key : String} {value : Datum}
    (hvalue : style.Takes (key, value)) : style.TakesAll (entries.put key value) := by
  intro p hp
  rcases Entries.mem_put hp with hp | rfl
  · exact h p hp
  · exact hvalue

theorem put_text (h : style.TakesAll entries) {key : String} (hkey : key ≠ Event.recordKey)
    (s : String) : style.TakesAll (entries.put key (.text s)) :=
  h.put (style.takes_text hkey s)

theorem putAll (h : style.TakesAll entries) (hmore : style.TakesAll more) :
    style.TakesAll (entries.putAll more) :=
  fun p hp => (Entries.mem_putAll hp).elim (h p) (hmore p)

theorem join (h : style.TakesAll entries) (hmore : style.TakesAll more) :
    style.TakesAll (more.foldl (fun acc v => acc.putIfAbsent v.1 v.2) entries) :=
  fun p hp => (Entries.mem_join hp).elim (h p) (hmore p)

theorem erase (h : style.TakesAll entries) (key : String) : style.TakesAll (entries.erase key) :=
  fun p hp => h p (List.mem_filter.mp hp).1

/-- The name of an event is taken under another key too. -/
theorem jsonParts (h : style.TakesAll entries) : style.TakesAll (Event.jsonParts entries) := by
  refine (h.erase "event").put (style.takes_of_spellable (by decide) ?_)
  cases hname : entries.get? "event" with
  | none => trivial
  | some d =>
    exact (h _ (Entries.mem_of_get? hname)).words (show "event" ≠ Event.errorRequest by decide)

end Style.TakesAll

namespace Logger

variable {logger : Logger} {e : Event} {context : Entries Datum} {style : Style}

theorem distinct_partsIn : (logger.partsIn e context style).Distinct := by
  have hoffered := ((logger.distinct.putAll e.fields).put "event" (.text e.name)).join context
  have hparts := Event.parts_of_offered (fun _ key s _ h => h.put key (.text s))
    (fun _ key h => h.erase key) e hoffered
  cases style with
  | plain => exact hparts none true
  | chosen format timestamp =>
    have herased := (hparts (some logger.name) timestamp).erase Event.errorRequest
    cases format with
    | json => exact (herased.erase "event").put "message" _
    | console => exact herased

theorem takesAll_partsIn (he : style.TakesAll e.fields) (hcarried : style.TakesAll logger.carried)
    (hcontext : style.TakesAll context) : style.TakesAll (logger.partsIn e context style) := by
  have hevent : "event" ≠ Event.recordKey := by decide
  have hoffered := ((hcarried.putAll he).put_text hevent e.name).join hcontext
  have hparts := Event.parts_of_offered (fun _ _ s hkey h => h.put_text hkey s)
    (fun _ key h => h.erase key) e hoffered
  cases style with
  | plain => exact hparts none true
  | chosen format timestamp =>
    have herased := (hparts (some logger.name) timestamp).erase Event.errorRequest
    cases format with
    | json => exact herased.jsonParts
    | console => exact herased

/-- In a chosen style nothing asks for the error in progress any more. -/
theorem ne_errorRequest_of_mem {format : LogFormat} {timestamp : Bool} {p : String × Datum}
    (hp : p ∈ logger.partsIn e context (.chosen format timestamp)) :
    p.1 ≠ Event.errorRequest := by
  have hne : ∀ {parts : Entries Datum}, p ∈ parts.erase Event.errorRequest →
      p.1 ≠ Event.errorRequest :=
    fun hmem => of_decide_eq_true (List.mem_filter.mp hmem).2
  cases format with
  | console => exact hne hp
  | json =>
    rcases Entries.mem_put hp with hp | rfl
    · exact hne (List.mem_filter.mp hp).1
    · exact show "message" ≠ Event.errorRequest by decide

/-- An event is put into words exactly if the style takes each of its parts. -/
theorem exists_line_iff : (∃ line, logger.line e context style = .ok line) ↔
    ∀ p ∈ logger.partsIn e context style, style.Takes p := by
  have hd := @distinct_partsIn logger e context style
  cases style with
  | plain => exact Event.exists_consoleLine_iff hd
  | chosen format timestamp =>
    have hrecord : ∀ {parts : Entries Datum}, parts.Distinct →
        (Event.checkRecord parts = .ok () ↔
          ∀ p ∈ parts, p.1 = Event.recordKey → p.2 = .null) := by
      intro parts hparts
      rw [Event.checkRecord_eq_ok_iff]
      refine ⟨fun h p hp hkey => h p.2 ?_, fun h d hd => h _ (Entries.mem_of_get? hd) rfl⟩
      rw [← hkey]
      exact hparts.get?_of_mem hp
    cases format with
    | json =>
      refine (exists_check_ok_iff.trans (and_congr (hrecord hd) Event.exists_jsonLine_iff)).trans ?_
      constructor
      · rintro ⟨hnull, hwords⟩ p hp
        exact ⟨fun _ => hnull p hp, fun hconsole => (nomatch hconsole), fun _ => hwords p hp⟩
      · exact fun h => ⟨fun p hp => (h p hp).record nofun,
          fun p hp => (h p hp).words (ne_errorRequest_of_mem hp)⟩
    | console =>
      refine (exists_check_ok_iff.trans
        (and_congr (hrecord hd) (Event.exists_consoleLine_iff hd))).trans ?_
      constructor
      · rintro ⟨hnull, hplain⟩ p hp
        exact ⟨fun _ => hnull p hp, fun _ => (hplain p hp).below trivial, (hplain p hp).words⟩
      · exact fun h => ⟨fun p hp => (h p hp).record nofun, fun p hp =>
          ⟨fun hplain => absurd rfl hplain, fun _ => (h p hp).below rfl, (h p hp).words⟩⟩

end Logger

namespace EventLog

/-- Something keeps the event from being written to the logger of the index: it is put into words
there, and the style of the logger does not take one of its parts. Below the threshold events are
put into words before any set-up only. -/
def Hinders (log : EventLog) (p : Nat × Event) : Prop :=
  ∃ logger, log.loggers[p.1]? = some logger ∧
    (log.styleOf logger = .plain ∨ log.threshold ≤ p.2.level.number) ∧
    ¬ (log.styleOf logger).TakesAll (logger.partsIn p.2 log.context (log.styleOf logger))

variable {log : EventLog}

theorem exists_linesOf_iff {logger : Logger} {e : Event} :
    (∃ lines, log.linesOf logger e = .ok lines) ↔
      ((log.styleOf logger = .plain ∨ log.threshold ≤ e.level.number) →
        (log.styleOf logger).TakesAll (logger.partsIn e log.context (log.styleOf logger))) := by
  have hline := @Logger.exists_line_iff logger e log.context (log.styleOf logger)
  unfold linesOf admits
  by_cases hlevel : log.threshold ≤ e.level.number
  · rw [decide_eq_true hlevel, imp_iff_right (Or.inr hlevel)]
    exact exists_map_ok_iff.trans hline
  · rw [decide_eq_false hlevel]
    cases hstyle : log.styleOf logger with
    | plain =>
      rw [hstyle] at hline
      exact exists_map_ok_iff.trans (hline.trans (imp_iff_right (Or.inl rfl)).symm)
    | chosen format timestamp =>
      -- Nothing is put into words here, whatever the parts are.
      exact iff_of_true ⟨[], rfl⟩ fun hworded => absurd (hworded.resolve_left nofun) hlevel

/-- An event is written, or held back, unless something hinders it. -/
theorem exists_emit_iff {p : Nat × Event} :
    (∃ lines, (log.emit p.1 p.2).1 = .ok lines) ↔ ¬ log.Hinders p := by
  unfold Hinders
  cases hlogger : log.loggers[p.1]? with
  | none =>
    unfold emit
    rw [hlogger]
    simp
  | some logger =>
    rw [emit_fst hlogger, exists_linesOf_iff]
    simp

variable {ν : Type} {event? : ν → Option (Nat × Event)} {notes : List ν}

theorem play_of_not_hinders (hfree : ∀ p ∈ notes.filterMap event?, ¬ log.Hinders p) :
    ∃ lines, play event? log notes =
      ⟨lines, notes, none, log.touchAll ((notes.filterMap event?).map Prod.fst)⟩ := by
  have hwritten : ∀ p ∈ notes.filterMap event?, ∃ lines,
      (log.emit p.1 p.2).1 = .ok lines ∧ True :=
    fun p hp => (exists_emit_iff.mpr (hfree p hp)).imp fun _ hlines => ⟨hlines, trivial⟩
  obtain ⟨written, _, hplay⟩ := play_eq hwritten
  exact ⟨written.flatten, hplay⟩

/-- Some notes are played to their end exactly if none of their events is hindered. -/
theorem play_flaw_eq_none_iff :
    (play event? log notes).flaw = none ↔ ∀ p ∈ notes.filterMap event?, ¬ log.Hinders p := by
  constructor
  · intro hnone p hp hhindered
    obtain ⟨flaw, hflaw⟩ : ∃ flaw, (log.emit p.1 p.2).1 = .error flaw := by
      cases hemit : (log.emit p.1 p.2).1 with
      | error flaw => exact ⟨flaw, rfl⟩
      | ok lines => exact absurd hhindered (exists_emit_iff.mp ⟨lines, hemit⟩)
    obtain ⟨_, hsome⟩ := play_flaw ⟨p, hp, flaw, hflaw⟩
    exact nomatch hnone.symm.trans hsome
  · intro hfree
    obtain ⟨lines, hplay⟩ := play_of_not_hinders hfree
    rw [hplay]

/-- Nothing in the log stands in the way of events that all styles take. -/
structure Ready (log : EventLog) : Prop where
  carried : ∀ logger ∈ log.loggers, ∀ style : Style, style.TakesAll logger.carried
  context : ∀ style : Style, style.TakesAll log.context

theorem ready_unconfigured : unconfigured.Ready where
  carried logger h style := by
    have hcarried : logger.carried = [] := by
      simp only [unconfigured, List.mem_cons, List.not_mem_nil, or_false] at h
      rcases h with rfl | rfl <;> rfl
    rw [hcarried]
    exact .nil
  context _ := .nil

namespace Ready

theorem not_hinders (h : log.Ready) {p : Nat × Event}
    (he : ∀ style : Style, style.TakesAll p.2.fields) : ¬ log.Hinders p := by
  rintro ⟨logger, hlogger, _, hparts⟩
  exact hparts (Logger.takesAll_partsIn (he _) (h.carried logger (List.mem_of_getElem? hlogger) _)
    (h.context _))

theorem touch (h : log.Ready) (index : Nat) : (log.touch index).Ready := by
  unfold EventLog.touch
  split
  · exact h
  · rename_i logger hlogger
    have hcarried : (log.settle logger).carried = logger.carried := by
      unfold settle
      split <;> rfl
    refine ⟨fun other hother => ?_, h.context⟩
    rcases List.mem_or_eq_of_mem_set hother with hmem | rfl
    · exact h.carried other hmem
    · rw [hcarried]
      exact h.carried logger (List.mem_of_getElem? hlogger)

theorem emit (h : log.Ready) (index : Nat) (e : Event) : (log.emit index e).2.Ready := by
  unfold EventLog.emit
  split
  · exact h
  · exact h.touch index

theorem write (h : log.Ready) (index : Nat) (event : Except NameClash Event) :
    (log.write index event).2.Ready := by
  cases event with
  | error clash => exact h.touch index
  | ok e => exact h.emit index e

theorem openLogger (h : log.Ready) (name : Option String) : (log.openLogger name).2.Ready := by
  refine ⟨fun logger hlogger => ?_, h.context⟩
  rcases List.mem_append.mp hlogger with hold | hnew
  · exact h.carried logger hold
  · have hcarried : logger.carried = [] := by
      rw [List.mem_singleton.mp hnew]
      unfold Logger.ofName
      split <;> rfl
    rw [hcarried]
    exact fun _ => .nil

theorem configure (h : log.Ready) (level : String) (format : LogFormat) (timestamp : Bool) :
    (log.configure level format timestamp).1.Ready := by
  have hinstall : (log.install (levelMeaning level)).1.Ready := by
    unfold install
    split
    · exact h
    · split <;> exact ⟨h.carried, h.context⟩
  unfold EventLog.configure
  split
  · rename_i installed heq
    rw [heq] at hinstall
    exact ⟨hinstall.carried, hinstall.context⟩
  · rename_i installed e heq
    rw [heq] at hinstall
    exact hinstall

theorem setVariable (h : log.Ready) {name : String} {value : Datum}
    (hvalue : ∀ style : Style, style.Takes (name, value)) : (log.setVariable name value).Ready :=
  ⟨h.carried, fun style => (h.context style).put (hvalue style)⟩

theorem clearVariables (h : log.Ready) : log.clearVariables.Ready := ⟨h.carried, fun _ => .nil⟩

theorem touchAll (h : log.Ready) (indices : List Nat) : (log.touchAll indices).Ready := by
  induction indices generalizing log with
  | nil => exact h
  | cons index rest ih => exact ih (h.touch index)

section Play

variable (hevents : ∀ n i e, event? n = some (i, e) → ∀ style : Style, style.TakesAll e.fields)

include hevents

private theorem exists_played (h : log.Ready) (notes : List ν) :
    ∃ lines, EventLog.play event? log notes =
      ⟨lines, notes, none, log.touchAll ((notes.filterMap event?).map Prod.fst)⟩ := by
  refine play_of_not_hinders fun p hp => ?_
  obtain ⟨n, _, hn⟩ := List.mem_filterMap.mp hp
  exact h.not_hinders (hevents n p.1 p.2 hn)

theorem play_log (h : log.Ready) (notes : List ν) : (EventLog.play event? log notes).log =
    log.touchAll ((notes.filterMap event?).map Prod.fst) := by
  obtain ⟨lines, hplay⟩ := h.exists_played hevents notes
  rw [hplay]

/-- Notes are played to their end. -/
theorem play (h : log.Ready) (notes : List ν) :
    (play event? log notes).flaw = none ∧ (play event? log notes).reached = notes ∧
      (play event? log notes).log.Ready := by
  obtain ⟨lines, hplay⟩ := h.exists_played hevents notes
  rw [hplay]
  exact ⟨rfl, rfl, h.touchAll _⟩

end Play

end Ready

end EventLog

end InfraLint
