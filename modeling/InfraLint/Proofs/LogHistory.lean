import InfraLint.Proofs.IssuedEvents
import InfraLint.Proofs.SetUps

/-!
Who decides on the lines of a log. Once the log has been set up, a call comes to a line if its
level is not below the threshold that the first set-up asked for. The style of the line is the one
that was in force when the logger was first called after that set-up; as long as it has not been
called since, it is the one in force now. Main statement: this, for any sequence of steps whose
set-ups do not fail, and the same for the library's own loggers in the course of an analysis.
-/
namespace InfraLint

/-- What comes of passing an event, if it could be made, to a logger: with `line` for the line
that an event comes to in the style of the logger. An event that cannot be put into words fails,
but below the threshold it is not put into words. -/
inductive LogCall (threshold : Int) (line : Event → Except Unwritable String) :
    Except NameClash Event → Except LogError (List String) → Prop
  | below {e : Event} (h : e.level.number < threshold) : LogCall threshold line (.ok e) (.ok [])
  | written {e : Event} {text : String} (h : threshold ≤ e.level.number)
      (hline : line e = .ok text) : LogCall threshold line (.ok e) (.ok [text])
  | refused (clash : NameClash) : LogCall threshold line (.error clash) (.error (.clash clash))
  | flawed {e : Event} {flaw : Unwritable} (h : threshold ≤ e.level.number)
      (hline : line e = .error flaw) : LogCall threshold line (.ok e) (.error (.unwritable flaw))

namespace EventLog

variable {log : EventLog} {logger : Logger} {format : LogFormat} {timestamp : Bool}

theorem logCall_linesOf (hstyle : log.styleOf logger = .chosen format timestamp) (e : Event) :
    LogCall log.threshold (logger.line · log.context (log.styleOf logger)) (.ok e)
      ((log.linesOf logger e).mapError .unwritable) := by
  unfold linesOf
  rw [hstyle]
  by_cases hlevel : log.threshold ≤ e.level.number
  · rw [show log.admits e.level = true from decide_eq_true hlevel]
    dsimp only
    cases hline : logger.line e log.context (.chosen format timestamp) with
    | ok text => exact .written hlevel hline
    | error flaw => exact .flawed hlevel hline
  · rw [show log.admits e.level = false from decide_eq_false hlevel]
    exact .below (Int.not_le.mp hlevel)

theorem logCall_write {i : Nat} (hlogger : log.loggers[i]? = some logger)
    (hstyle : log.styleOf logger = .chosen format timestamp) (event : Except NameClash Event) :
    LogCall log.threshold (logger.line · log.context (log.styleOf logger)) event
      (log.write i event).1 := by
  cases event with
  | error clash => exact .refused clash
  | ok e =>
    show LogCall _ _ _ ((log.emit i e).1.mapError .unwritable)
    rw [emit_fst hlogger]
    exact logCall_linesOf hstyle e

/-- The log has not been set up, and no logger keeps a style. -/
structure Blank (log : EventLog) : Prop where
  installed : log.installed = false
  style : log.style = .plain
  kept : ∀ (i : Nat) (logger : Logger), log.loggers[i]? = some logger → logger.kept = none

theorem blank_unconfigured : unconfigured.Blank where
  installed := rfl
  style := rfl
  kept i logger hlogger := by
    have hmem := List.mem_of_getElem? hlogger
    simp only [unconfigured, List.mem_cons, List.not_mem_nil, or_false] at hmem
    rcases hmem with rfl | rfl <;> rfl

end EventLog

namespace Session

variable {s : Session} {steps : List Step} {step last : Step}

theorem LogMoves.blank {log : EventLog} (h : s.LogMoves step log) (hblank : s.log.Blank) :
    log.Blank := by
  refine ⟨h.installed.trans hblank.installed, h.style.trans hblank.style, fun i logger hi => ?_⟩
  cases hold : s.log.loggers[i]? with
  | none =>
    obtain ⟨name, rfl⟩ := h.exists_name hold hi
    exact Logger.kept_ofName name
  | some before =>
    have hkept := hblank.kept i before hold
    cases h with
    | aside => exact hblank.kept i logger hi
    | opened =>
      have hlt := (List.getElem?_eq_some_iff.mp hold).1
      obtain rfl := Option.some.inj (((List.getElem?_append_left hlt).trans hold).symm.trans hi)
      exact hkept
    | used indices =>
      have hsettle : s.log.settle before = before := by
        unfold EventLog.settle
        rw [hkept, hblank.style]
      rw [s.log.getElem?_touchAll, hold, Option.map_some, hsettle, ite_self] at hi
      obtain rfl := Option.some.inj hi
      exact hkept

/-- Without a set-up the log stays as if it had just been made. -/
theorem blank_performAll (hblank : s.log.Blank) (h : ∀ step ∈ steps, ¬ step.SetsUp) :
    (s.performAll steps).log.Blank := by
  induction steps generalizing s with
  | nil => exact hblank
  | cons step rest ih =>
    have hmoves := @logMoves_perform s step (h step List.mem_cons_self)
    exact ih (hmoves.blank hblank) fun later hlater => h later (List.mem_cons_of_mem _ hlater)

/-- The step of index `k` is this one, and it is taken in this session. -/
structure Happens (steps : List Step) (k : Nat) (s : Session) (step : Step) : Prop where
  taken : steps[k]? = some step
  reached : after (steps.take k) = s

namespace Happens

variable {k : Nat}

theorem lt (h : Happens steps k s step) : k < steps.length :=
  (List.getElem?_eq_some_iff.mp h.taken).1

theorem concat (h : Happens steps k s step) (last : Step) : Happens (steps ++ [last]) k s step where
  taken := (List.getElem?_append_left h.lt).trans h.taken
  reached := by
    rw [List.take_append_of_le_length h.lt.le]
    exact h.reached

theorem of_last (steps : List Step) (last : Step) :
    Happens (steps ++ [last]) steps.length (after steps) last where
  taken := List.getElem?_concat_length
  reached := congrArg after List.take_left

theorem concat_cases (h : Happens (steps ++ [last]) k s step) :
    Happens steps k s step ∨ k = steps.length ∧ s = after steps ∧ step = last := by
  have hlt := h.lt
  rw [List.length_append, List.length_singleton] at hlt
  rcases Nat.lt_succ_iff_lt_or_eq.mp hlt with hk | rfl
  · refine Or.inl ⟨(List.getElem?_append_left hk).symm.trans h.taken, ?_⟩
    rw [← h.reached, List.take_append_of_le_length hk.le]
  · have hlast := Happens.of_last steps last
    exact Or.inr ⟨rfl, h.reached.symm.trans hlast.reached,
      Option.some.inj (h.taken.symm.trans hlast.taken)⟩

/-- A logger that has been called is still there. -/
theorem exists_logger (h : Happens steps k s step) {i : Nat} (hcalls : step.Calls s i) :
    ∃ logger, (after steps).log.loggers[i]? = some logger := by
  obtain rfl := h.reached
  obtain ⟨kept, hlater⟩ :=
    logger_performAll (List.getElem?_eq_getElem hcalls.lt) (steps.drop k)
  have hsplit : (after (steps.take k)).performAll (steps.drop k) = after steps :=
    (performAll_append start _ _).symm.trans (congrArg after (List.take_append_drop k steps))
  rw [hsplit] at hlater
  exact ⟨_, hlater⟩

end Happens

/-- No set-up among the steps fails. -/
def SetUpsSucceed (steps : List Step) : Prop :=
  ∀ k s level format timestamp, Happens steps k s (.configureLog level format timestamp) →
    ∃ n, (s.configureLog level format timestamp).2 = .ok n

/-- The step of index `f` is the first set-up. -/
structure FirstSetUp (steps : List Step) (f : Nat) (s : Session) (step : Step) : Prop where
  happens : Happens steps f s step
  setsUp : step.SetsUp
  first : ∀ j s step, j < f → Happens steps j s step → ¬ step.SetsUp

/-- The step is a set-up that asks for this level. -/
inductive Step.AsksFor (s : Session) (n : Int) : Step → Prop
  | configureLog {c : Settings} {level : Option String} (format : Option String) (timestamp : Bool)
      (hc : s.settings = .ok c) (hn : levelMeaning (given level c.logging.level) = .number n) :
      AsksFor s n (.configureLog level format timestamp)

/-- The step is a set-up that chooses this style. -/
inductive Step.Chooses (s : Session) : Style → Step → Prop
  | configureLog {c : Settings} (level format : Option String) (timestamp : Bool)
      (hc : s.settings = .ok c) :
      Chooses s (chosenStyle c format timestamp) (.configureLog level format timestamp)

/-- Just before the step of index `k` the style is that of the last set-up. -/
def InForce (steps : List Step) (k : Nat) (style : Style) : Prop :=
  ∃ j s step, j < k ∧ Happens steps j s step ∧ step.Chooses s style ∧
    ∀ i s' step', j < i → i < k → Happens steps i s' step' → ¬ step'.SetsUp

/-- No step between those of index `f` and of index `k` calls the logger of index `i`. -/
def Uncalled (steps : List Step) (i f k : Nat) : Prop :=
  ∀ j s step, f < j → j < k → Happens steps j s step → ¬ step.Calls s i

/-- Of the steps after that of index `f`, the one of index `k` is the first that calls the logger
of index `i`. If no step does so, the first call is still to come. -/
structure FirstCall (steps : List Step) (f i k : Nat) : Prop where
  later : f < k
  le : k ≤ steps.length
  calls : ∀ s step, Happens steps k s step → step.Calls s i
  first : Uncalled steps i f k

/-- The style was in force when the logger of index `i` was first called after the step of index
`f`. -/
def LineStyle (steps : List Step) (f i : Nat) (style : Style) : Prop :=
  ∃ k, FirstCall steps f i k ∧ InForce steps k style

theorem Step.Chooses.exists_chosen {style : Style} (h : step.Chooses s style) :
    ∃ format timestamp, style = .chosen format timestamp := by
  cases h with
  | configureLog level format timestamp hc => exact ⟨_, _, rfl⟩

section Tracing

variable {f i k : Nat} {style : Style}

theorem InForce.exists_chosen (h : InForce steps k style) :
    ∃ format timestamp, style = .chosen format timestamp := by
  obtain ⟨j, s, step, _, _, hchooses, _⟩ := h
  exact hchooses.exists_chosen

theorem InForce.concat (h : InForce steps k style) (hk : k ≤ steps.length) (last : Step) :
    InForce (steps ++ [last]) k style := by
  obtain ⟨j, s, step, hjk, hj, hchooses, hlast⟩ := h
  refine ⟨j, s, step, hjk, hj.concat last, hchooses, fun i s' step' hji hik hi => ?_⟩
  rcases hi.concat_cases with hi | ⟨rfl, _⟩
  · exact hlast i s' step' hji hik hi
  · exact absurd hk (Nat.not_le.mpr hik)

/-- A style stays in force until the next set-up. -/
theorem InForce.stay (h : InForce steps steps.length style) (hno : ¬ last.SetsUp) :
    InForce (steps ++ [last]) (steps ++ [last]).length style := by
  obtain ⟨j, s, step, hjk, hj, hchooses, hlast⟩ := h
  refine ⟨j, s, step, (hj.concat last).lt, hj.concat last, hchooses, fun i s' step' hji _ hi => ?_⟩
  rcases hi.concat_cases with hi | ⟨_, _, rfl⟩
  · exact hlast i s' step' hji hi.lt hi
  · exact hno

theorem inForce_last (h : last.Chooses (after steps) style) :
    InForce (steps ++ [last]) (steps ++ [last]).length style := by
  refine ⟨_, _, _, (Happens.of_last steps last).lt, Happens.of_last steps last, h, ?_⟩
  intro i s' step' hlt hi
  rw [List.length_append, List.length_singleton] at hi
  omega

theorem Uncalled.concat (h : Uncalled steps i f k) (hk : k ≤ steps.length) (last : Step) :
    Uncalled (steps ++ [last]) i f k := by
  intro j s step hfj hjk hj
  rcases hj.concat_cases with hj | ⟨rfl, _⟩
  · exact h j s step hfj hjk hj
  · exact absurd hk (Nat.not_le.mpr hjk)

theorem Uncalled.stay (h : Uncalled steps i f steps.length) (hno : ¬ last.Calls (after steps) i) :
    Uncalled (steps ++ [last]) i f (steps ++ [last]).length := by
  intro j s step hfj _ hj
  rcases hj.concat_cases with hj | ⟨_, rfl, rfl⟩
  · exact h j s step hfj hj.lt hj
  · exact hno

theorem uncalled_of_no_logger (h : (after steps).log.loggers[i]? = none) :
    Uncalled steps i f steps.length := by
  intro j s step _ _ hj hcalls
  obtain ⟨logger, hlogger⟩ := hj.exists_logger hcalls
  exact nomatch h.symm.trans hlogger

/-- What the logger of index `i` keeps, if the step of index `f` is the first set-up. -/
inductive KeepsTraced (steps : List Step) (f i : Nat) : Option Style → Prop
  | unused (h : Uncalled steps i f steps.length) : KeepsTraced steps f i none
  | used {k : Nat} {s : Session} {step : Step} {style : Style} (hf : f < k)
      (hk : Happens steps k s step) (hcalls : step.Calls s i) (hfirst : Uncalled steps i f k)
      (hstyle : InForce steps k style) : KeepsTraced steps f i (some style)

/-- A style that is kept stays what it is. -/
theorem KeepsTraced.concat (h : KeepsTraced steps f i (some style)) (last : Step) :
    KeepsTraced (steps ++ [last]) f i (some style) := by
  cases h with
  | used hf hk hcalls hfirst hstyle =>
    exact .used hf (hk.concat last) hcalls (hfirst.concat hk.lt.le last)
      (hstyle.concat hk.lt.le last)

theorem KeepsTraced.stay {kept : Option Style} (h : KeepsTraced steps f i kept)
    (hno : ¬ last.Calls (after steps) i) : KeepsTraced (steps ++ [last]) f i kept := by
  cases kept with
  | some style => exact h.concat last
  | none =>
    cases h with
    | unused huncalled => exact .unused (huncalled.stay hno)

/-- A logger that is called keeps the style in force, if it has not kept one before. -/
theorem KeepsTraced.settle {logger : Logger} (h : KeepsTraced steps f i logger.kept)
    (hf : f < steps.length) (hforce : InForce steps steps.length (after steps).log.style)
    (hcalls : last.Calls (after steps) i) :
    KeepsTraced (steps ++ [last]) f i ((after steps).log.settle logger).kept := by
  cases hkept : logger.kept with
  | some style =>
    rw [EventLog.settle_of_kept _ hkept, hkept]
    rw [hkept] at h
    exact h.concat last
  | none =>
    obtain ⟨format, timestamp, hstyle⟩ := hforce.exists_chosen
    rw [EventLog.kept_settle _ hkept hstyle]
    rw [hkept] at h
    cases h with
    | unused huncalled =>
      exact .used hf (Happens.of_last steps last) hcalls (huncalled.concat le_rfl last)
        (hforce.concat le_rfl last)

theorem KeepsTraced.lineStyle {kept : Option Style} (h : KeepsTraced steps f i kept)
    (hf : f < steps.length) (hforce : InForce steps steps.length style) :
    LineStyle steps f i (kept.getD style) := by
  cases h with
  | unused huncalled =>
    refine ⟨steps.length, ⟨hf, le_rfl, fun s step hnone => ?_, huncalled⟩, hforce⟩
    exact absurd hnone.lt (Nat.lt_irrefl _)
  | used hf hk hcalls hfirst hstyle =>
    refine ⟨_, ⟨hf, hk.lt.le, fun s' step' hk' => ?_, hfirst⟩, hstyle⟩
    obtain rfl := hk.reached.symm.trans hk'.reached
    obtain rfl := Option.some.inj (hk.taken.symm.trans hk'.taken)
    exact hcalls

/-- The log after the steps, if the one of index `f` is the first set-up and asks for level `n`. -/
structure LogTraced (steps : List Step) (f : Nat) (n : Int) : Prop where
  lt : f < steps.length
  installed : (after steps).log.installed = true
  threshold : (after steps).log.threshold = n
  inForce : InForce steps steps.length (after steps).log.style
  keeps : ∀ (i : Nat) (logger : Logger), (after steps).log.loggers[i]? = some logger →
    KeepsTraced steps f i logger.kept

theorem after_configureLog (steps : List Step) (level format : Option String) (timestamp : Bool) :
    after (steps ++ [.configureLog level format timestamp]) =
      ((after steps).configureLog level format timestamp).1 :=
  after_concat steps (.configureLog level format timestamp)

/-- The first set-up chooses the style of all loggers, as none has kept one before. -/
theorem LogTraced.start (hblank : (after steps).log.Blank) {level format : Option String}
    {timestamp : Bool} {n : Int}
    (hok : ((after steps).configureLog level format timestamp).2 = .ok n) :
    Step.AsksFor (after steps) n (.configureLog level format timestamp) ∧
      LogTraced (steps ++ [.configureLog level format timestamp]) steps.length n := by
  have hmoves := (after steps).setUpMoves_configureLog level format timestamp
  have hafter := after_configureLog steps level format timestamp
  generalize (after steps).configureLog level format timestamp = made at hmoves hok hafter
  cases hmoves with
  | unread | refused => exact nomatch hok
  | restyled _ h => exact nomatch h.symm.trans hblank.installed
  | first hc hnew hn =>
    obtain rfl := Except.ok.inj hok
    refine ⟨.configureLog format timestamp hc hn, ?_⟩
    constructor
    case lt => simp
    case installed | threshold => rw [hafter]
    case inForce =>
      rw [hafter]
      exact inForce_last (.configureLog level format timestamp hc)
    case keeps =>
      intro i logger hlogger
      rw [hafter] at hlogger
      rw [hblank.kept i logger hlogger]
      refine .unused fun j s step hfj hjk hj => ?_
      rw [List.length_append, List.length_singleton] at hjk
      omega

/-- A set-up that is not the first one changes the style of the loggers that keep none. -/
theorem LogTraced.restyle {n : Int} (h : LogTraced steps f n) {level format : Option String}
    {timestamp : Bool}
    (hok : ∃ k, ((after steps).configureLog level format timestamp).2 = .ok k) :
    LogTraced (steps ++ [.configureLog level format timestamp]) f n := by
  obtain ⟨k, hok⟩ := hok
  have hmoves := (after steps).setUpMoves_configureLog level format timestamp
  have hafter := after_configureLog steps level format timestamp
  generalize (after steps).configureLog level format timestamp = made at hmoves hok hafter
  cases hmoves with
  | unread | refused => exact nomatch hok
  | first _ hnew => exact nomatch h.installed.symm.trans hnew
  | restyled hc hinstalled =>
    constructor
    case lt => exact h.lt.trans (by simp)
    case installed =>
      rw [hafter]
      exact hinstalled
    case threshold =>
      rw [hafter]
      exact h.threshold
    case inForce =>
      rw [hafter]
      exact inForce_last (.configureLog level format timestamp hc)
    case keeps =>
      intro i logger hlogger
      rw [hafter] at hlogger
      exact (h.keeps i logger hlogger).stay nofun

/-- A logger comes into use when it is called, and then keeps the style in force. -/
theorem LogTraced.aside {n : Int} (h : LogTraced steps f n) (hno : ¬ last.SetsUp) :
    LogTraced (steps ++ [last]) f n := by
  have hready := (sound_after steps).ready
  have hmoves := @logMoves_perform (after steps) last hno
  rw [← after_concat] at hmoves
  constructor
  case lt => exact h.lt.trans (by simp)
  case installed => exact hmoves.installed.trans h.installed
  case threshold => exact hmoves.threshold.trans h.threshold
  case inForce =>
    rw [hmoves.style]
    exact h.inForce.stay hno
  case keeps =>
    intro i logger hlogger
    cases hold : (after steps).log.loggers[i]? with
    | none =>
      -- The logger has just been opened, so that no step can have called it.
      have huncalled : ¬ last.Calls (after steps) i := by
        intro hcalls
        exact absurd (List.getElem?_eq_none_iff.mp hold) (Nat.not_le.mpr hcalls.lt)
      obtain ⟨name, rfl⟩ := hmoves.exists_name hold hlogger
      rw [Logger.kept_ofName]
      exact .unused ((uncalled_of_no_logger hold).stay huncalled)
    | some before =>
      have hkeeps := h.keeps i before hold
      by_cases hcalls : last.Calls (after steps) i
      · obtain rfl := Option.some.inj ((hmoves.called hready hold hcalls).symm.trans hlogger)
        exact hkeeps.settle h.lt h.inForce hcalls
      · obtain rfl := Option.some.inj ((hmoves.uncalled hready hold hcalls).symm.trans hlogger)
        exact hkeeps.stay hcalls

theorem FirstSetUp.concat_cases (h : FirstSetUp (steps ++ [last]) f s step) :
    FirstSetUp steps f s step ∨
      f = steps.length ∧ s = after steps ∧ step = last ∧ ∀ step ∈ steps, ¬ step.SetsUp := by
  rcases h.happens.concat_cases with hf | ⟨rfl, rfl, rfl⟩
  · exact Or.inl ⟨hf, h.setsUp, fun j s step hj hstep => h.first j s step hj (hstep.concat last)⟩
  · refine Or.inr ⟨rfl, rfl, rfl, fun x hx => ?_⟩
    obtain ⟨j, hj, rfl⟩ := List.mem_iff_getElem.mp hx
    exact h.first j _ _ hj (Happens.concat ⟨List.getElem?_eq_getElem hj, rfl⟩ _)

/-- The first set-up asks for the threshold, and from it on the log is traced. -/
theorem traced_after (hok : SetUpsSucceed steps) (h : FirstSetUp steps f s step) :
    ∃ n, step.AsksFor s n ∧ LogTraced steps f n := by
  induction steps using List.reverseRecOn generalizing f s step with
  | nil => exact absurd h.happens.lt (Nat.not_lt_zero f)
  | append_singleton steps last ih =>
    have hok' : SetUpsSucceed steps := fun k s level format timestamp hk =>
      hok k s level format timestamp (hk.concat last)
    have hlast : ∀ level format timestamp, last = .configureLog level format timestamp →
        ∃ n, ((after steps).configureLog level format timestamp).2 = .ok n := by
      rintro level format timestamp rfl
      exact hok _ _ level format timestamp (Happens.of_last steps _)
    -- The last step comes after the first set-up, or it is the first set-up itself.
    rcases h.concat_cases with hf | ⟨rfl, rfl, rfl, hno⟩
    · obtain ⟨n, hasks, htraced⟩ := ih hok' hf
      refine ⟨n, hasks, ?_⟩
      by_cases hsets : last.SetsUp
      · obtain ⟨level, format, timestamp⟩ := hsets
        exact htraced.restyle (hlast level format timestamp rfl)
      · exact htraced.aside hsets
    · obtain ⟨level, format, timestamp⟩ := h.setsUp
      obtain ⟨n, hn⟩ := hlast level format timestamp rfl
      have hblank := @blank_performAll start steps EventLog.blank_unconfigured hno
      exact ⟨n, LogTraced.start hblank hn⟩

theorem FirstCall.eq {l : Nat} (hk : FirstCall steps f i k) (hl : FirstCall steps f i l) :
    k = l := by
  have hle : ∀ {k l : Nat}, FirstCall steps f i k → FirstCall steps f i l → ¬ k < l := by
    intro k l hk hl hlt
    obtain ⟨step, htaken⟩ : ∃ step, steps[k]? = some step :=
      ⟨_, List.getElem?_eq_getElem (hlt.trans_le hl.le)⟩
    have hstep : Happens steps k (after (steps.take k)) step := ⟨htaken, rfl⟩
    exact hl.first k _ _ hk.later hlt hstep (hk.calls _ _ hstep)
  exact Nat.le_antisymm (Nat.not_lt.mp (hle hl hk)) (Nat.not_lt.mp (hle hk hl))

theorem Step.Chooses.setsUp (h : step.Chooses s style) : step.SetsUp := by
  cases h with
  | configureLog level format timestamp hc => exact .configureLog level format timestamp

theorem Step.Chooses.eq {style' : Style} (h : step.Chooses s style) (h' : step.Chooses s style') :
    style = style' := by
  cases h with
  | configureLog level format timestamp hc =>
    cases h' with
    | configureLog _ _ _ hc' => rw [Except.ok.inj (hc.symm.trans hc')]

theorem InForce.eq {style' : Style} (h : InForce steps k style) (h' : InForce steps k style') :
    style = style' := by
  obtain ⟨j, s, step, hjk, hj, hchooses, hlast⟩ := h
  obtain ⟨j', s', step', hjk', hj', hchooses', hlast'⟩ := h'
  rcases Nat.lt_trichotomy j j' with hlt | rfl | hlt
  · exact absurd hchooses'.setsUp (hlast j' s' step' hlt hjk' hj')
  · obtain rfl := hj.reached.symm.trans hj'.reached
    obtain rfl := Option.some.inj (hj.taken.symm.trans hj'.taken)
    exact hchooses.eq hchooses'
  · exact absurd hchooses.setsUp (hlast' j s step hlt hjk hj)

theorem LineStyle.eq {style' : Style} (h : LineStyle steps f i style)
    (h' : LineStyle steps f i style') : style = style' := by
  obtain ⟨k, hk, hforce⟩ := h
  obtain ⟨k', hk', hforce'⟩ := h'
  obtain rfl := hk.eq hk'
  exact hforce.eq hforce'

end Tracing

/-- What the log makes of the calls after the steps, if the one of index `f` is the first set-up
and asks for level `n`. -/
structure LogLaw (steps : List Step) (f : Nat) (n : Int) : Prop where
  threshold : (after steps).log.threshold = n
  called : ∀ (i : Nat) (logger : Logger), (after steps).log.loggers[i]? = some logger →
    ∃ style, (∀ other, LineStyle steps f i other ↔ other = style) ∧ ∀ event,
      LogCall n (logger.line · (after steps).log.context style) event
        ((after steps).write i event).2
  own : ∀ o : OwnLogger, ∃ kept,
    (after steps).log.loggers[o.index]? = some (.bare o.name kept)
  /-- The events of an analysis go to the library's own loggers, and each comes to the lines that
  a call of the logger with it comes to. -/
  analyzed : ∀ (rule model : Nat) (r : Rule) (m : Model), (after steps).rules[rule]? = some r →
    (after steps).models[model]? = some m → ∃ s report written,
      (after steps).analyze rule model = some (s, report) ∧ report.lines = written.flatten ∧
      List.Forall₂ (fun p lines => (∃ o : OwnLogger, p.1 = o.index) ∧
          ((after steps).write p.1 (.ok p.2)).2 = .ok lines)
        (r.events m) written

/-- The lines of an analysis are those of its events, one after another. -/
theorem exists_written_of_analyze (hready : s.log.Ready) {rule model : Nat} {r : Rule} {m : Model}
    (hr : s.rules[rule]? = some r) (hm : s.models[model]? = some m) : ∃ s' report written,
      s.analyze rule model = some (s', report) ∧ report.lines = written.flatten ∧
      List.Forall₂ (fun p lines => (∃ o : OwnLogger, p.1 = o.index) ∧
          (s.write p.1 (.ok p.2)).2 = .ok lines)
        (r.events m) written := by
  have hevents : ∀ p ∈ r.events m, ∃ lines,
      (s.log.emit p.1 p.2).1 = .ok lines ∧ (∃ o : OwnLogger, p.1 = o.index) ∧
        (s.write p.1 (.ok p.2)).2 = .ok lines := by
    intro p hp
    obtain ⟨n, _, hn⟩ := List.mem_filterMap.mp hp
    obtain ⟨lines, hlines⟩ :=
      EventLog.exists_emit_iff.mpr (hready.not_hinders (RuleNote.takesAll n p.1 p.2 hn))
    refine ⟨lines, hlines, RuleNote.exists_own hn, ?_⟩
    show (s.log.emit p.1 p.2).1.mapError LogError.unwritable = .ok lines
    rw [hlines]
    rfl
  obtain ⟨written, hall, hplay⟩ := EventLog.play_eq hevents
  refine ⟨_, _, written, by simp only [analyze, hr, hm]; rfl, ?_, hall⟩
  exact congrArg EventLog.Playback.lines hplay

/-- Whatever has happened in a session, if no set-up has failed, a call is written if its level is
not below the level that the first set-up asked for, and is put into words in the style that was in
force when its logger was first called after that set-up. A call that fails counts as a call. -/
theorem log_after (hok : SetUpsSucceed steps) {f : Nat} (h : FirstSetUp steps f s step) :
    ∃ n, step.AsksFor s n ∧ LogLaw steps f n := by
  obtain ⟨n, hasks, htraced⟩ := traced_after hok h
  refine ⟨n, hasks, htraced.threshold, fun i logger hlogger => ?_, fun o => ?_,
    fun rule model r m hr hm => exists_written_of_analyze (sound_after steps).ready hr hm⟩
  · have hstyle := (htraced.keeps i logger hlogger).lineStyle htraced.lt htraced.inForce
    obtain ⟨k, _, hforce⟩ := id hstyle
    obtain ⟨format, timestamp, hchosen⟩ := hforce.exists_chosen
    refine ⟨(after steps).log.styleOf logger, fun other => ⟨fun hother => hother.eq hstyle, ?_⟩,
      fun event => ?_⟩
    · rintro rfl
      exact hstyle
    · rw [← htraced.threshold]
      exact EventLog.logCall_write hlogger hchosen event
  · cases o with
    | rules => exact @logger_performAll start 0 _ rfl steps
    | redundancy => exact @logger_performAll start 1 _ rfl steps

section Sample

/-- A logger is called in vain after the first set-up, and then comes another set-up. -/
def loggedSteps : List Step :=
  [.configureLog (some "INFO") (some "console") false, .openLogger (some "t"),
    .write 2 (Event.make .debug "vain" []), .configureLog (some "DEBUG") (some "json") true]

private theorem loggedSteps_succeed : SetUpsSucceed loggedSteps := by
  rintro (_ | _ | _ | _ | k) s level format timestamp ⟨htaken, rfl⟩
  · obtain ⟨rfl, rfl, rfl⟩ := Step.configureLog.inj (Option.some.inj htaken)
    exact ⟨20, by with_unfolding_all rfl⟩
  · exact nomatch htaken
  · exact nomatch htaken
  · obtain ⟨rfl, rfl, rfl⟩ := Step.configureLog.inj (Option.some.inj htaken)
    exact ⟨20, by with_unfolding_all rfl⟩
  · exact nomatch htaken

private theorem loggedSteps_first :
    FirstSetUp loggedSteps 0 start (.configureLog (some "INFO") (some "console") false) where
  happens := ⟨rfl, rfl⟩
  setsUp := .configureLog (some "INFO") (some "console") false
  first j _ _ hj := absurd hj (Nat.not_lt_zero j)

private theorem start_settings : start.settings = .ok ⟨.standard, .standard⟩ := by
  with_unfolding_all rfl

/-- The call in vain has the logger keep the style of the first set-up. -/
private theorem loggedSteps_lineStyle : LineStyle loggedSteps 0 2 (.chosen .console false) := by
  refine ⟨2, ⟨by decide, by decide, ?_, ?_⟩, 0, start, _, by decide, ⟨rfl, rfl⟩, ?_, ?_⟩
  · rintro s step ⟨htaken, rfl⟩
    obtain rfl := Option.some.inj htaken
    exact .write _ (by with_unfolding_all decide)
  · intro j s step hfj hjk hj hcalls
    obtain rfl : j = 1 := by omega
    obtain rfl := Option.some.inj hj.taken
    exact nomatch hcalls
  · exact .configureLog (some "INFO") (some "console") false start_settings
  · intro j s step hj hjk hstep hsets
    obtain rfl : j = 1 := by omega
    obtain rfl := Option.some.inj hstep.taken
    exact nomatch hsets

theorem log_after_sample :
    SetUpsSucceed loggedSteps ∧
      FirstSetUp loggedSteps 0 start (.configureLog (some "INFO") (some "console") false) ∧
      LogLaw loggedSteps 0 20 ∧
      LogCall 20
        (Logger.line (.bare "t" (some (.chosen .console false))) · [] (.chosen .console false))
        (Event.make .info "ev" []) ((after loggedSteps).write 2 (Event.make .info "ev" [])).2 := by
  have hlogger : (after loggedSteps).log.loggers[2]? =
      some (.bare "t" (some (.chosen .console false))) := by
    with_unfolding_all rfl
  obtain ⟨n, _, hlaw⟩ := log_after loggedSteps_succeed loggedSteps_first
  have hn : n = 20 := by
    rw [← hlaw.threshold]
    with_unfolding_all rfl
  rw [hn] at hlaw
  obtain ⟨style, hstyle, hcall⟩ := hlaw.called 2 _ hlogger
  rw [← (hstyle _).mp loggedSteps_lineStyle] at hcall
  exact ⟨loggedSteps_succeed, loggedSteps_first, hlaw, hcall (Event.make .info "ev" [])⟩

/-- A call whose level is above the threshold need not be written. -/
theorem call_not_written :
    ¬ ∀ (steps : List Step) (f : Nat) (s : Session) (step : Step) (n : Int), SetUpsSucceed steps →
      FirstSetUp steps f s step → step.AsksFor s n → ∀ i level name fields,
      i < (after steps).log.loggers.length → n ≤ level.number →
      ∃ line, ((after steps).write i (Event.make level name fields)).2 = .ok [line] := by
  intro h
  have hasks : Step.AsksFor start 20 (.configureLog (some "INFO") (some "console") false) :=
    .configureLog (some "console") false start_settings (by with_unfolding_all rfl)
  have hcall := h loggedSteps 0 start _ 20 loggedSteps_succeed loggedSteps_first hasks 2 .info "ev"
    [("stack", .integer 5)] (by with_unfolding_all decide) (by decide)
  have hfails : ((after loggedSteps).write 2
      (Event.make .info "ev" [("stack", .integer 5)])).2 =
        .error (.unwritable (.notText "int")) := by
    with_unfolding_all rfl
  obtain ⟨line, hline⟩ := hcall
  exact nomatch hfails.symm.trans hline

end Sample

end Session

end InfraLint
