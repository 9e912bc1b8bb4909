import InfraLint.EventLog.Basic
import Mathlib.Data.List.Forall2

/-!
Events passed to the log. All that an event does to the log is that its logger comes into use, and
this does not show in the lines of any other event. So events that are passed one after another
come to the lines that each of them comes to by itself.
-/
namespace InfraLint.EventLog

variable (log : EventLog)

@[simp] theorem touch_installed (index : Nat) : (log.touch index).installed = log.installed := by
  unfold touch
  split <;> rfl

@[simp] theorem touch_threshold (index : Nat) : (log.touch index).threshold = log.threshold := by
  unfold touch
  split <;> rfl

@[simp] theorem touch_style (index : Nat) : (log.touch index).style = log.style := by
  unfold touch
  split <;> rfl

@[simp] theorem touch_context (index : Nat) : (log.touch index).context = log.context := by
  unfold touch
  split <;> rfl

theorem getElem?_touch (index i : Nat) : (log.touch index).loggers[i]? =
    (log.loggers[i]?).map fun logger => if i = index then log.settle logger else logger := by
  unfold touch
  cases hlogger : log.loggers[index]? with
  | none =>
    by_cases hi : i = index
    · rw [hi, hlogger]
      rfl
    · simp [hi]
  | some logger =>
    have hlt := (List.getElem?_eq_some_iff.mp hlogger).1
    by_cases hi : i = index
    · rw [hi, List.getElem?_set_self hlt, hlogger]
      simp
    · rw [List.getElem?_set_ne (Ne.symm hi)]
      simp [hi]

@[simp] theorem styleOf_settle (logger : Logger) :
    log.styleOf (log.settle logger) = log.styleOf logger := by
  unfold settle
  split
  · rename_i format timestamp hkept hstyle
    simp [styleOf, hkept, hstyle]
  · rfl

theorem settle_eq (logger : Logger) : ∃ kept, log.settle logger = { logger with kept } := by
  unfold settle
  split
  · exact ⟨_, rfl⟩
  · exact ⟨logger.kept, rfl⟩

/-- A logger that keeps a style has settled. -/
theorem settle_of_kept {logger : Logger} {style : Style} (h : logger.kept = some style) :
    log.settle logger = logger := by
  unfold settle
  rw [h]

/-- A logger that keeps no style settles for the one that has been chosen. -/
theorem kept_settle {logger : Logger} (h : logger.kept = none) {format : LogFormat}
    {timestamp : Bool} (hstyle : log.style = .chosen format timestamp) :
    (log.settle logger).kept = some log.style := by
  unfold settle
  rw [h, hstyle]

theorem settle_settle (logger : Logger) : log.settle (log.settle logger) = log.settle logger := by
  unfold settle
  cases hkept : logger.kept with
  | some style => simp only [hkept]
  | none =>
    cases hstyle : log.style with
    | plain => simp only [hkept]
    | chosen format timestamp => simp only

theorem linesOf_settle (logger : Logger) (e : Event) :
    log.linesOf (log.settle logger) e = log.linesOf logger e := by
  have hline : (log.settle logger).line e log.context = logger.line e log.context := by
    obtain ⟨kept, hkept⟩ := log.settle_eq logger
    rw [hkept]
    rfl
  unfold linesOf
  rw [styleOf_settle, hline]

private theorem settle_touch (index : Nat) (logger : Logger) :
    (log.touch index).settle logger = log.settle logger := by
  unfold settle
  rw [touch_style]

private theorem linesOf_touch (index : Nat) (logger : Logger) (e : Event) :
    (log.touch index).linesOf logger e = log.linesOf logger e := by
  unfold linesOf admits styleOf
  rw [touch_threshold, touch_style, touch_context]

/-- It does not show in the lines of an event which loggers have come into use. -/
theorem emit_touch (index i : Nat) (e : Event) :
    ((log.touch index).emit i e).1 = (log.emit i e).1 := by
  unfold emit
  rw [getElem?_touch]
  cases log.loggers[i]? with
  | none => rfl
  | some logger =>
    simp only [Option.map_some, linesOf_touch]
    split
    · exact log.linesOf_settle logger e
    · rfl

/-- Loggers come into use one after another. -/
def touchAll (indices : List Nat) : EventLog := indices.foldl touch log

@[simp] theorem touchAll_nil : log.touchAll [] = log := rfl

@[simp] theorem touchAll_cons (index : Nat) (rest : List Nat) :
    log.touchAll (index :: rest) = (log.touch index).touchAll rest := rfl

variable (indices : List Nat)

@[simp] theorem touchAll_installed : (log.touchAll indices).installed = log.installed := by
  induction indices generalizing log with
  | nil => rfl
  | cons index rest ih => rw [touchAll_cons, ih, touch_installed]

@[simp] theorem touchAll_threshold : (log.touchAll indices).threshold = log.threshold := by
  induction indices generalizing log with
  | nil => rfl
  | cons index rest ih => rw [touchAll_cons, ih, touch_threshold]

@[simp] theorem touchAll_style : (log.touchAll indices).style = log.style := by
  induction indices generalizing log with
  | nil => rfl
  | cons index rest ih => rw [touchAll_cons, ih, touch_style]

theorem getElem?_touchAll (i : Nat) : (log.touchAll indices).loggers[i]? =
    (log.loggers[i]?).map fun logger => if i ∈ indices then log.settle logger else logger := by
  induction indices generalizing log with
  | nil => simp
  | cons index rest ih =>
    rw [touchAll_cons, ih, getElem?_touch]
    cases log.loggers[i]? with
    | none => rfl
    | some logger =>
      simp only [Option.map_some, settle_touch, List.mem_cons]
      by_cases hi : i = index
      · by_cases hrest : i ∈ rest <;> simp [hi, settle_settle]
      · simp [hi]

variable {log} {ν : Type} {event? : ν → Option (Nat × Event)}

theorem emit_snd (index : Nat) (e : Event) : (log.emit index e).2 = log.touch index := by
  unfold emit touch
  cases log.loggers[index]? <;> rfl

theorem emit_fst {index : Nat} {logger : Logger} (h : log.loggers[index]? = some logger)
    (e : Event) : (log.emit index e).1 = log.linesOf logger e := by
  unfold emit
  rw [h]

theorem write_snd (index : Nat) (event : Except NameClash Event) :
    (log.write index event).2 = log.touch index := by
  cases event with
  | error clash => rfl
  | ok e => exact emit_snd index e

/-- However far notes are played, nothing but the use of loggers changes. -/
theorem exists_touchAll_of_play (notes : List ν) :
    ∃ touched, (play event? log notes).log = log.touchAll touched := by
  induction notes generalizing log with
  | nil => exact ⟨[], rfl⟩
  | cons n rest ih =>
    unfold play
    cases event? n with
    | none => exact ih
    | some found =>
      obtain ⟨index, e⟩ := found
      rcases hemit : log.emit index e with ⟨flaw | lines, log'⟩
      · obtain rfl : log.touch index = log' := by rw [← emit_snd index e, hemit]
        exact ⟨[index], by simp only [hemit, touchAll_cons, touchAll_nil]⟩
      · obtain rfl : log.touch index = log' := by rw [← emit_snd index e, hemit]
        obtain ⟨touched, htouched⟩ := @ih (log.touch index)
        exact ⟨index :: touched, by simp only [hemit, htouched, touchAll_cons]⟩

/-- Events that can be written come to their lines one after another. -/
theorem play_eq {Q : Nat × Event → List String → Prop} {notes : List ν}
    (h : ∀ p ∈ notes.filterMap event?, ∃ lines, (log.emit p.1 p.2).1 = .ok lines ∧ Q p lines) :
    ∃ written, List.Forall₂ Q (notes.filterMap event?) written ∧ play event? log notes =
      ⟨written.flatten, notes, none, log.touchAll ((notes.filterMap event?).map Prod.fst)⟩ := by
  induction notes generalizing log with
  | nil => exact ⟨[], .nil, rfl⟩
  | cons n rest ih =>
    unfold play
    cases hn : event? n with
    | none =>
      rw [List.filterMap_cons_none hn] at h ⊢
      obtain ⟨written, hall, hplay⟩ := ih h
      exact ⟨written, hall, by simp only [hplay]⟩
    | some found =>
      obtain ⟨index, e⟩ := found
      rw [List.filterMap_cons_some hn] at h ⊢
      obtain ⟨lines, hlines, hQ⟩ := h _ List.mem_cons_self
      have hemit : log.emit index e = (.ok lines, log.touch index) :=
        Prod.ext hlines (emit_snd index e)
      have hrest : ∀ p ∈ rest.filterMap event?,
          ∃ lines, ((log.touch index).emit p.1 p.2).1 = .ok lines ∧ Q p lines := by
        intro p hp
        rw [emit_touch]
        exact h p (List.mem_cons_of_mem _ hp)
      obtain ⟨written, hall, hplay⟩ := ih hrest
      exact ⟨lines :: written, .cons hQ hall, by simp only [hemit, hplay]; rfl⟩

/-- One event that cannot be written ends it all. -/
theorem play_flaw {notes : List ν}
    (h : ∃ p ∈ notes.filterMap event?, ∃ flaw, (log.emit p.1 p.2).1 = .error flaw) :
    ∃ flaw, (play event? log notes).flaw = some flaw := by
  induction notes generalizing log with
  | nil =>
    obtain ⟨p, hp, _⟩ := h
    exact nomatch hp
  | cons n rest ih =>
    unfold play
    cases hn : event? n with
    | none =>
      rw [List.filterMap_cons_none hn] at h
      exact ih h
    | some found =>
      obtain ⟨index, e⟩ := found
      rw [List.filterMap_cons_some hn] at h
      rcases hemit : log.emit index e with ⟨flaw | lines, log'⟩
      · exact ⟨flaw, by simp only [hemit]⟩
      · obtain rfl : log.touch index = log' := by rw [← emit_snd index e, hemit]
        have hrest : ∃ p ∈ rest.filterMap event?, ∃ flaw,
            ((log.touch index).emit p.1 p.2).1 = .error flaw := by
          obtain ⟨p, hp, flaw, hflaw⟩ := h
          rcases List.mem_cons.mp hp with rfl | hp
          · exact nomatch (congrArg Prod.fst hemit).symm.trans hflaw
          · exact ⟨p, hp, flaw, by rw [emit_touch]; exact hflaw⟩
        obtain ⟨flaw, hflaw⟩ := @ih (log.touch index) hrest
        exact ⟨flaw, by simp only [hemit, hflaw]⟩

end InfraLint.EventLog
