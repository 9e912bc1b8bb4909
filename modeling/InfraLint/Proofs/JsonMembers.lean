import InfraLint.Proofs.WrittenEvents

/-!
The members of a line in JSON. The fields of an event, what its logger carries and the variables
of the context go into one object; the name of the event, its level and the name of the logger go
over them. Main statement: the object has each key once, and under any key but the few that are
taken it has what fields, logger and context offer, in this order. The key under which an event
keeps its name on the way is taken too, so that what a logger or the context has under it is left
out.
-/
namespace InfraLint

/-- What there is to be written under a key: the field of the event if it has one, else what the
logger carries, else the variable of the context. -/
def Logger.offered (logger : Logger) (e : Event) (context : Entries Datum) (key : String) :
    Option Datum :=
  (e.fields.get? key).or ((logger.carried.get? key).or (context.get? key))

/-- The object that an event comes to in JSON without the time. -/
def Logger.members (logger : Logger) (e : Event) (context : Entries Datum) : Entries Datum :=
  logger.partsIn e context (.chosen .json false)

namespace Event

def objectLine (members : Entries Datum) : Except Unwritable String := do
  checkRecord members
  (Json.write (.record members)).mapError .tooLong

theorem exists_objectLine_iff {members : Entries Datum} : (∃ line, objectLine members = .ok line) ↔
    (∀ d, members.get? recordKey = some d → d = .null) ∧ ∀ p ∈ members, p.2.Spellable :=
  exists_check_ok_iff.trans (and_congr checkRecord_eq_ok_iff exists_jsonLine_iff)

/-- Keys under which something is asked for that is not written as it is. -/
def requests : List String := [errorRequest, stackRequest]

/-- Keys of a line in JSON that have a meaning of their own. -/
def ownKeys : List String := ["message", "level", "logger"]

/-- Where an event keeps its name until it is written. -/
def nameKey : String := "event"

end Event

/-- How an event, what its logger carries and the context come together in an object. -/
structure Merged (logger : Logger) (e : Event) (context members : Entries Datum) : Prop where
  distinct : members.Distinct
  message : members.get? "message" = some (.text e.name)
  level : members.get? "level" = some (.text e.level.word)
  origin : members.get? "logger" = some (.text logger.name)
  unnamed : members.get? Event.nameKey = none
  others : ∀ key ∉ Event.ownKeys, key ≠ Event.nameKey →
    members.get? key = logger.offered e context key

/-- An object is written if all that is offered can be put into words and no record is offered. -/
theorem Merged.exists_line {logger : Logger} {e : Event} {context members : Entries Datum}
    (h : Merged logger e context members)
    (hrecord : ∀ d, logger.offered e context Event.recordKey = some d → d = .null)
    (hwords : ∀ key d, logger.offered e context key = some d → d.Spellable) :
    ∃ line, Event.objectLine members = .ok line := by
  refine Event.exists_objectLine_iff.mpr ⟨fun d hd => hrecord d ?_, fun p hp => ?_⟩
  · rw [← h.others Event.recordKey (by decide) (by decide)]
    exact hd
  · obtain ⟨key, d⟩ := p
    have hget := h.distinct.get?_of_mem hp
    -- A member under one of the own keys is a text; any other is there because it is offered.
    by_cases hown : key ∈ Event.ownKeys
    · simp only [Event.ownKeys, List.mem_cons, List.not_mem_nil, or_false] at hown
      rcases hown with rfl | rfl | rfl
      · obtain rfl := Option.some.inj (h.message.symm.trans hget)
        trivial
      · obtain rfl := Option.some.inj (h.level.symm.trans hget)
        trivial
      · obtain rfl := Option.some.inj (h.origin.symm.trans hget)
        trivial
    · have hname : key ≠ Event.nameKey := by
        rintro rfl
        cases h.unnamed.symm.trans hget
      exact hwords key d ((h.others key hown hname).symm.trans hget)

namespace Logger

open Entries

variable {logger : Logger} {e : Event} {context : Entries Datum}

theorem get?_parts_untimed (hfields : e.fields.Distinct)
    (hstack : logger.offered e context Event.stackRequest = none) (key : String) :
    (e.parts logger.carried context (some logger.name) false).get? key =
      if key = Event.stackRequest then none
      else if key = "logger" then some (.text logger.name)
      else if key = "level" then some (.text e.level.word)
      else if key = Event.nameKey then some (.text e.name)
      else logger.offered e context key := by
  have hnamed : ∀ key, get? (((context.foldl (fun acc v => acc.putIfAbsent v.1 v.2)
      ((logger.carried.putAll e.fields).put "event" (.text e.name))).put "level"
        (.text e.level.word)).put "logger" (.text logger.name)) key =
      if key = "logger" then some (.text logger.name)
      else if key = "level" then some (.text e.level.word)
      else if key = Event.nameKey then some (.text e.name)
      else logger.offered e context key := by
    intro key
    unfold offered
    simp only [get?_put, get?_join, get?_putAll _ hfields]
    by_cases hname : key = Event.nameKey
    · simp [hname, Event.nameKey]
    · rw [if_neg (show key ≠ "event" from hname), if_neg hname, Option.or_assoc]
  have hasked := (hnamed Event.stackRequest).trans hstack
  unfold Event.parts
  simp only [Bool.false_eq_true, if_false, hasked, Option.any_none, get?_erase, hnamed]

theorem get?_members (hfields : e.fields.Distinct)
    (hstack : logger.offered e context Event.stackRequest = none) (key : String) :
    (logger.members e context).get? key =
      if key = "message" then some (.text e.name)
      else if key = Event.nameKey ∨ key ∈ Event.requests then none
      else if key = "logger" then some (.text logger.name)
      else if key = "level" then some (.text e.level.word)
      else logger.offered e context key := by
  have hname : get? ((e.parts logger.carried context (some logger.name) false).erase
      Event.errorRequest) "event" = some (.text e.name) := by
    rw [get?_erase_of_ne _ (by decide), get?_parts_untimed hfields hstack]
    rfl
  show get? (Event.jsonParts _) key = _
  unfold Event.jsonParts
  rw [hname, get?_put, get?_erase, get?_erase, get?_parts_untimed hfields hstack]
  by_cases hreserved : key = Event.nameKey ∨ key ∈ Event.requests
  · rw [if_pos hreserved]
    rcases hreserved with rfl | hrequest
    · rfl
    · rcases List.mem_pair.mp hrequest with rfl | rfl <;> rfl
  · obtain ⟨hkey, hrequest⟩ := not_or.mp hreserved
    obtain ⟨herror, hstack⟩ := not_or.mp (List.mem_pair.not.mp hrequest)
    rw [if_neg hreserved, if_neg (show key ≠ "event" from hkey), if_neg herror, if_neg hstack,
      if_neg hkey]
    rfl

theorem merged_members (hfields : e.fields.Distinct)
    (hrequests : ∀ key ∈ Event.requests, logger.offered e context key = none) :
    Merged logger e context (logger.members e context) where
  distinct := distinct_partsIn
  message := get?_members hfields (hrequests _ (by decide)) "message"
  level := get?_members hfields (hrequests _ (by decide)) "level"
  origin := get?_members hfields (hrequests _ (by decide)) "logger"
  unnamed := get?_members hfields (hrequests _ (by decide)) Event.nameKey
  others key hown hname := by
    obtain ⟨hmessage, hlevel, hlogger⟩ :
        key ≠ "message" ∧ key ≠ "level" ∧ key ≠ "logger" := by
      simpa [Event.ownKeys] using hown
    rw [get?_members hfields (hrequests _ (by decide)), if_neg hmessage]
    by_cases hrequest : key ∈ Event.requests
    · rw [if_pos (Or.inr hrequest), hrequests key hrequest]
    · rw [if_neg (not_or.mpr ⟨hname, hrequest⟩), if_neg hlogger, if_neg hlevel]

end Logger

namespace EventLog

variable {log : EventLog} {logger : Logger} {e : Event}

/-- A logger that writes in JSON without the time brings each event that the threshold lets
through to the line of one object, if it can be written. The object has each key once. It names
event, level and logger under keys of their own, whatever else is offered under these; the key under
which the event keeps its name on the way does not occur in it, and under any other key it has what
is offered. -/
theorem json_line_merges (hstyle : log.styleOf logger = .chosen .json false)
    (hfields : e.fields.Distinct)
    (hrequests : ∀ key ∈ Event.requests, logger.offered e log.context key = none) :
    ∃ members lines, Merged logger e log.context members ∧
      lines = (if log.threshold ≤ e.level.number then
        (Event.objectLine members).map fun line => [line] else .ok []) ∧
      (∀ index, log.loggers[index]? = some logger →
        (log.write index (.ok e)).1 = lines.mapError .unwritable) ∧
      ∀ name, logger = .ofName name → log.writeOnce name (.ok e) = lines.mapError .unwritable := by
  have hlines : log.linesOf logger e = if log.threshold ≤ e.level.number then
      (Event.objectLine (logger.members e log.context)).map fun line => [line] else .ok [] := by
    unfold linesOf admits
    rw [hstyle]
    by_cases hlevel : log.threshold ≤ e.level.number
    · rw [decide_eq_true hlevel, if_pos hlevel]
      rfl
    · rw [decide_eq_false hlevel, if_neg hlevel]
  refine ⟨_, _, Logger.merged_members hfields hrequests, rfl, fun index hlogger => ?_,
    fun name hname => ?_⟩
  · show (log.emit index e).1.mapError LogError.unwritable = _
    rw [emit_fst hlogger, hlines]
  · unfold writeOnce
    simp only
    rw [← hname, hlines]

section Sample

def collidingLogger : Logger :=
  ⟨"t", [("level", .text "bound"), ("a", .integer 2), ("b", .integer 2)], by decide, none⟩

def collidingLog : EventLog :=
  ((unconfigured.configure "INFO" .json false).1.addLogger collidingLogger).2
    |>.setVariable "message" (.text "variable")
    |>.setVariable "b" (.integer 3)
    |>.setVariable "c" (.integer 3)

def collidingEvent : Event := ⟨.info, "ev", [("logger", .text "field"), ("a", .integer 1)]⟩

private theorem collidingEvent_words (key : String) (d : Datum)
    (h : collidingLogger.offered collidingEvent collidingLog.context key = some d) :
    d.Spellable := by
  have hall : Datum.SpellableIn
      (collidingEvent.fields ++ (collidingLogger.carried ++ collidingLog.context)) :=
    ⟨trivial, show Text.Spellable 1 by decide, trivial, show Text.Spellable 2 by decide,
      show Text.Spellable 2 by decide, trivial, show Text.Spellable 3 by decide,
      show Text.Spellable 3 by decide, trivial⟩
  rw [Logger.offered, ← Entries.get?_append, ← Entries.get?_append] at h
  exact Datum.spellableIn_iff.mp hall _ (Entries.mem_of_get? h)

theorem json_line_merges_sample :
    ∃ logger members, collidingLog.loggers[2]? = some logger ∧
      Merged logger collidingEvent collidingLog.context members ∧
      members.get? "a" = some (.integer 1) ∧ members.get? "b" = some (.integer 2) ∧
      members.get? "c" = some (.integer 3) ∧ members.get? "d" = none ∧
      ∃ line, Event.objectLine members = .ok line ∧
        (collidingLog.write 2 (.ok collidingEvent)).1 = .ok [line] := by
  have hrequests : ∀ key ∈ Event.requests,
      collidingLogger.offered collidingEvent collidingLog.context key = none := by
    intro key hkey
    rcases List.mem_pair.mp hkey with rfl | rfl <;> rfl
  obtain ⟨members, lines, hmerged, hlines, hwrite, -⟩ :=
    @json_line_merges collidingLog collidingLogger collidingEvent rfl (by decide) hrequests
  obtain ⟨line, hline⟩ := hmerged.exists_line nofun collidingEvent_words
  refine ⟨_, members, rfl, hmerged, hmerged.others "a" (by decide) (by decide),
    hmerged.others "b" (by decide) (by decide), hmerged.others "c" (by decide) (by decide),
    hmerged.others "d" (by decide) (by decide), line, hline, ?_⟩
  rw [hwrite 2 rfl, hlines, hline]
  rfl

def namingLog : EventLog :=
  (unconfigured.configure "INFO" .json false).1.setVariable Event.nameKey (.text "x")

def bareEvent : Event := ⟨.info, "ev", []⟩

/-- What is offered under that key does not get into the line. -/
theorem variable_left_out :
    (Logger.ofName (some "t")).offered bareEvent namingLog.context Event.nameKey =
        some (.text "x") ∧
      ((Logger.ofName (some "t")).members bareEvent namingLog.context).get? Event.nameKey = none ∧
      namingLog.writeOnce (some "t") (.ok bareEvent) =
        .ok ["\x7b\"level\": \"info\", \"logger\": \"t\", \"message\": \"ev\"\x7d"] := by
  refine ⟨rfl, rfl, ?_⟩
  decide +kernel

end Sample

end EventLog

end InfraLint
