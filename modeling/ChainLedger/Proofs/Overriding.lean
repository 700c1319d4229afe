import ChainLedger.Settings.Environment

/-!
# Settings that the environment replaces

What is read from a text is checked before the variables are looked at.  Beyond this check, a value
that a variable replaces makes no difference: two records of settings that differ in such values
only are brought to the same end, be it settings or an error.  Whatever settings come of it are
checked once more.
-/

namespace ChainLedger

/-- A setting. -/
inductive Setting
  | workers
  | attempts
  | conflicts
  | retryDelay
  | callTimeout
  | errorBackoff
  | pollInterval
  | batchSize
  | takeover
  | logLevel
deriving DecidableEq

namespace Setting

/-- The variables that replace a setting. -/
def names : Setting → List String
  | workers => ["QC_RECON_WORKER_THREADS"]
  | attempts => ["QC_RECON_MAX_STORE_ATTEMPTS"]
  | conflicts => ["QC_RECON_MAX_CAS_CONFLICTS"]
  | retryDelay => ["QC_RECON_STORE_RETRY_DELAY_MS"]
  | callTimeout => ["QC_RECON_STORE_CALL_TIMEOUT_MS"]
  | errorBackoff => ["QC_RECON_ERROR_BACKOFF_MS"]
  | pollInterval => ["QC_RECON_POLL_INTERVAL_MS"]
  | batchSize => ["QC_RECON_MAX_BATCH_SIZE"]
  | takeover => ["QC_RECON_FORCE_APPLY_RULE"]
  | logLevel => ["QC_LOG_LEVEL", "RUST_LOG"]

/-- Two records of settings have the same value of a setting. -/
def Same (x : Setting) (s t : Settings) : Prop :=
  match x with
  | workers => s.workers = t.workers
  | attempts => s.attempts = t.attempts
  | conflicts => s.conflicts = t.conflicts
  | retryDelay => s.retryDelay = t.retryDelay
  | callTimeout => s.callTimeout = t.callTimeout
  | errorBackoff => s.errorBackoff = t.errorBackoff
  | pollInterval => s.pollInterval = t.pollInterval
  | batchSize => s.batchSize = t.batchSize
  | takeover => s.takeover = t.takeover
  | logLevel => s.logLevel = t.logLevel

/-- A variable that replaces the setting is set. -/
def Replaced (env : Environment) (x : Setting) : Prop :=
  ∃ name ∈ x.names, (env name).isSome

end Setting

namespace Settings

/-- Settings are equal if all their values are. -/
theorem ext_of_same {s t : Settings} (h : ∀ x : Setting, x.Same s t) :
  s = t
  := by
  obtain ⟨workers, attempts, conflicts, retryDelay, callTimeout, errorBackoff, pollInterval,
    batchSize, takeover, logLevel⟩ := s
  obtain rfl : workers = _ := h .workers
  obtain rfl : attempts = _ := h .attempts
  obtain rfl : conflicts = _ := h .conflicts
  obtain rfl : retryDelay = _ := h .retryDelay
  obtain rfl : callTimeout = _ := h .callTimeout
  obtain rfl : errorBackoff = _ := h .errorBackoff
  obtain rfl : pollInterval = _ := h .pollInterval
  obtain rfl : batchSize = _ := h .batchSize
  obtain rfl : takeover = _ := h .takeover
  obtain rfl : logLevel = _ := h .logLevel
  rfl

/-! ### The check -/

/-- The engine can run with settings that have passed the check. -/
theorem valid_of_check {s t : Settings} (h : s.check = .ok t) :
  t.Valid
  := by
  rw [check] at h
  split at h
  · cases h
  · next hnone =>
      obtain rfl := Except.ok.inj h
      intro p hp
      have hp := List.find?_eq_none.mp hnone p hp
      simpa [Nat.pos_iff_ne_zero] using hp

end Settings

/-! ### One variable -/

namespace Variable

/-- The variable sets one setting, from its text alone, and leaves the others. -/
def Sets (v : Variable) (x : Setting) : Prop :=
  ∀ text s t, Option.Rel (fun s' t' => ∀ y : Setting, y = x ∨ y.Same s t → y.Same s' t')
    (v.assign? text s) (v.assign? text t)

variable {name : String} {bits : Nat} {set : Nat → Settings → Settings} {x : Setting}

theorem sets_number
    (h : ∀ n s t, ∀ y : Setting, y = x ∨ y.Same s t → y.Same (set n s) (set n t)) :
  (number name bits set).Sets x
  := by
  intro text s t
  rw [number]
  dsimp only
  cases Decimal.unsigned? bits (Text.trim text) with
  | none => exact .none
  | some n => exact .some (h n s t)

/-- The variables with the settings that they set. -/
def governed : List (Variable × Setting) :=
  all.zip [.workers, .attempts, .conflicts, .retryDelay, .callTimeout, .errorBackoff,
    .pollInterval, .batchSize, .takeover]

theorem map_governed :
  governed.map (·.1) = all
  := rfl

theorem sets_rule (name : String) :
  Sets ⟨name, fun text s => (rule? text).map fun takeover => { s with takeover }⟩ .takeover
  := by
  intro text s t
  dsimp only
  cases rule? text with
  | none => exact .none
  | some rule =>
      refine .some fun y h => ?_
      cases y <;> simp_all [Setting.Same]

theorem sets_governed :
  ∀ e ∈ governed, e.1.Sets e.2
  := by
  simp only [governed, all, List.zip_cons_cons, List.zip_nil_left, List.forall_mem_cons]
  refine ⟨sets_number ?_, sets_number ?_, sets_number ?_, sets_number ?_, sets_number ?_,
    sets_number ?_, sets_number ?_, sets_number ?_, sets_rule _, nofun⟩
  all_goals
    intro n s t y h
    cases y <;> simp_all [Setting.Same]

/-- Every setting but the log filter is set by the one variable that replaces it. -/
theorem exists_governed (h : x ≠ .logLevel) :
  ∃ v, (v, x) ∈ governed ∧ x.names = [v.name]
  := by
  have hnamed : ∃ e ∈ governed.map fun e => (e.2, e.1.name), e.1 = x ∧ x.names = [e.2] := by
    cases x with
    | logLevel => exact absurd rfl h
    | workers | attempts | conflicts | retryDelay | callTimeout | errorBackoff | pollInterval
    | batchSize | takeover => decide
  obtain ⟨_, hmem, rfl, hnames⟩ := hnamed
  obtain ⟨e, he, rfl⟩ := List.mem_map.mp hmem
  exact ⟨e.1, he, hnames⟩

end Variable

/-! ### All variables -/

namespace Settings

/-- Where two records of settings differ, one of the variables will still set the setting, or it is
the log filter and will be replaced. -/
def Levels (env : Environment) (es : List (Variable × Setting)) (s t : Settings) : Prop :=
  ∀ x : Setting, x.Same s t ∨ (∃ v, (v, x) ∈ es ∧ (env v.name).isSome) ∨
    x = .logLevel ∧ x.Replaced env

variable {env : Environment} {es : List (Variable × Setting)} {s t : Settings}

/-- A variable that is looked at brings both records to an error, or closer to each other. -/
theorem Levels.override {v : Variable} {x : Setting} (h : Levels env ((v, x) :: es) s t)
    (hsets : v.Sets x) :
  (∃ e, v.override env s = .error e ∧ v.override env t = .error e) ∨
    ∃ s' t', v.override env s = .ok s' ∧ v.override env t = .ok t' ∧ Levels env es s' t'
  := by
  rw [Variable.override, Variable.override]
  cases htext : env v.name with
  | none =>
      refine .inr ⟨s, t, rfl, rfl, fun y => ?_⟩
      rcases h y with hsame | ⟨v', hv', hset⟩ | hfilter
      · exact .inl hsame
      · rcases List.mem_cons.mp hv' with heq | hv'
        · cases heq
          rw [htext] at hset
          cases hset
        · exact .inr (.inl ⟨v', hv', hset⟩)
      · exact .inr (.inr hfilter)
  | some text =>
      have hboth := hsets text s t
      dsimp only
      generalize v.assign? text s = s'? at hboth ⊢
      generalize v.assign? text t = t'? at hboth ⊢
      cases hboth with
      | none => exact .inl ⟨_, rfl, rfl⟩
      | @some s' t' hkeeps =>
          refine .inr ⟨s', t', rfl, rfl, fun y => ?_⟩
          rcases h y with hsame | ⟨v', hv', hset⟩ | hfilter
          · exact .inl (hkeeps y (.inr hsame))
          · rcases List.mem_cons.mp hv' with heq | hv'
            · cases heq
              exact .inl (hkeeps _ (.inl rfl))
            · exact .inr (.inl ⟨v', hv', hset⟩)
          · exact .inr (.inr hfilter)

/-- When all variables have been looked at, both records have come to the same error, or differ in
a log filter at most that will be replaced. -/
theorem Levels.overrideAll (hes : ∀ e ∈ es, e.1.Sets e.2) (h : Levels env es s t) :
  (∃ e, (es.map (·.1)).foldlM (Variable.override env) s = .error e ∧
      (es.map (·.1)).foldlM (Variable.override env) t = .error e) ∨
    ∃ s' t', (es.map (·.1)).foldlM (Variable.override env) s = .ok s' ∧
      (es.map (·.1)).foldlM (Variable.override env) t = .ok t' ∧ Levels env [] s' t'
  := by
  induction es generalizing s t with
  | nil => exact .inr ⟨s, t, rfl, rfl, h⟩
  | cons e es ih =>
      obtain ⟨v, x⟩ := e
      rw [List.map_cons, List.foldlM_cons, List.foldlM_cons]
      rcases h.override (hes (v, x) (.head _)) with ⟨e, hs, ht⟩ | ⟨s', t', hs, ht, hlevels⟩
      · rw [hs, ht]
        exact .inl ⟨e, rfl, rfl⟩
      · rw [hs, ht]
        exact ih (fun e he => hes e (.tail _ he)) hlevels

/-- When no variable is left, the records differ in their log filters at most. -/
theorem Levels.same (h : Levels env [] s t) {x : Setting} (hx : x ≠ .logLevel) :
  x.Same s t
  := by
  rcases h x with hsame | ⟨v, hv, -⟩ | ⟨hfilter, -⟩
  · exact hsame
  · cases hv
  · exact absurd hfilter hx

/-- If no log filter is set either, the records are equal. -/
theorem Levels.eq_of_unset (h : Levels env [] s t)
    (hfilter : Variable.logLevels.findSome? env = none) :
  s = t
  := by
  apply ext_of_same
  intro x
  rcases h x with hsame | ⟨v, hv, -⟩ | ⟨rfl, name, hname, hset⟩
  · exact hsame
  · cases hv
  · rw [List.findSome?_eq_none_iff.mp hfilter name hname] at hset
    cases hset

/-- If a log filter is set, the records are equal with it. -/
theorem Levels.eq_of_set (h : Levels env [] s t) (filter : String) :
  { s with logLevel := filter } = { t with logLevel := filter }
  := by
  apply ext_of_same
  intro x
  have hbefore : x ≠ .logLevel → x.Same s t := h.same
  cases x with
  | logLevel => rfl
  | workers | attempts | conflicts | retryDelay | callTimeout | errorBackoff | pollInterval
  | batchSize | takeover => exact hbefore nofun

/-- Two records that differ only in what is replaced are level before the variables are looked
at. -/
theorem levels_governed (h : ∀ x : Setting, ¬ x.Replaced env → x.Same s t) :
  Levels env Variable.governed s t
  := by
  intro x
  by_cases hreplaced : x.Replaced env
  · by_cases hfilter : x = .logLevel
    · exact .inr (.inr ⟨hfilter, hreplaced⟩)
    · obtain ⟨v, hv, hnames⟩ := Variable.exists_governed hfilter
      obtain ⟨name, hname, hset⟩ := hreplaced
      rw [hnames, List.mem_singleton] at hname
      exact .inr (.inl ⟨v, hv, hname ▸ hset⟩)
  · exact .inl (h x hreplaced)

/-- What is replaced makes no difference to what the variables make of the settings. -/
theorem withEnvironment_congr (h : ∀ x : Setting, ¬ x.Replaced env → x.Same s t) :
  s.withEnvironment env = t.withEnvironment env
  := by
  rw [withEnvironment, withEnvironment, ← Variable.map_governed]
  rcases (levels_governed h).overrideAll Variable.sets_governed with
    ⟨e, hs, ht⟩ | ⟨s', t', hs, ht, hend⟩
  · rw [hs, ht]
  · rw [hs, ht]
    change check _ = check _
    congr 1
    cases hfilter : Variable.logLevels.findSome? env with
    | none => exact hend.eq_of_unset hfilter
    | some filter => exact hend.eq_of_set filter

/-- The settings that a text stands for, be they such that the engine can run with them or not. -/
def ofText? (text : String) : Option Settings := (Toml.parse? text).bind ofEntries?

theorem parse_of_ofText? {text : String} (h : ofText? text = some s) :
  parse text = s.check
  := by
  rw [ofText?] at h
  rw [parse, h]

/-- Settings come of a text and the variables only if the engine can run with them. -/
theorem valid_of_load {text : String} (h : load text env = .ok s) :
  s.Valid
  := by
  rw [load] at h
  cases hparse : parse text with
  | error e =>
      rw [hparse] at h
      cases h
  | ok given =>
      rw [hparse] at h
      change given.withEnvironment env = .ok s at h
      rw [withEnvironment] at h
      cases hall : Variable.all.foldlM (Variable.override env) given with
      | error e =>
          rw [hall] at h
          cases h
      | ok s' =>
          rw [hall] at h
          exact valid_of_check h

variable {text text' : String}

/-- Two texts whose settings differ only where a variable is set, and pass or fail the check alike,
come to the same with the variables, be it settings or an error.  A text whose own settings fail
the check is refused for the first zero among them, whatever the variables.  And the engine can run
with all settings that come of a text and the variables. -/
theorem load_congr_of_replaced (hs : ofText? text = some s) (ht : ofText? text' = some t)
    (h : ∀ x : Setting, ¬ x.Replaced env → x.Same s t) :
  (s.firstZero? = t.firstZero? → load text env = load text' env) ∧
    (∀ p, s.firstZero? = some p → ∀ env', load text env' = .error (.zero p)) ∧
    ∀ text env s, load text env = .ok s → s.Valid
  := by
  have hrefused : ∀ {text s p}, ofText? text = some s → s.firstZero? = some p →
      ∀ env', load text env' = .error (.zero p) := by
    intro text s p hs hp env'
    rw [load, parse_of_ofText? hs, check, hp]
    rfl
  refine ⟨fun hzero => ?_, fun p => hrefused hs, fun _ _ _ => valid_of_load⟩
  cases hp : s.firstZero? with
  | some p => rw [hrefused hs hp, hrefused ht (hzero.symm.trans hp)]
  | none =>
      rw [load, load, parse_of_ofText? hs, parse_of_ofText? ht, check, check, ← hzero, hp]
      exact withEnvironment_congr h

/-! ### Four workers -/

/-- The number of workers is replaced. -/
def fourWorkers : Environment := fun name =>
  if name = "QC_RECON_WORKER_THREADS" then some "4" else none

theorem same_but_workers (n m : Nat) (x : Setting) (h : ¬ x.Replaced fourWorkers) :
  x.Same { workers := n } { workers := m }
  := by
  cases x with
  | workers => exact absurd ⟨"QC_RECON_WORKER_THREADS", .head _, rfl⟩ h
  | attempts | conflicts | retryDelay | callTimeout | errorBackoff | pollInterval | batchSize
  | takeover | logLevel => rfl

/-- Two numbers of workers are replaced by a third one. -/
theorem workers_replaced :
  ofText? "worker_threads = 2" = some { workers := 2 } ∧ ofText? "" = some {} ∧
    (∀ x : Setting, ¬ x.Replaced fourWorkers → x.Same { workers := 2 } {}) ∧
    load "worker_threads = 2" fourWorkers = load "" fourWorkers ∧
    ∃ s, load "" fourWorkers = .ok s ∧ s.workers = 4 ∧ s.Valid
  := by
  have hs : ofText? "worker_threads = 2" = some { workers := 2 } := by decide +kernel
  have ht : ofText? "" = some {} := by decide +kernel
  have hsame := same_but_workers 2 8
  have hload : load "" fourWorkers = .ok { workers := 4 } := by
    rw [load, parse_of_ofText? ht]
    rfl
  obtain ⟨hcongr, -, hvalid⟩ := load_congr_of_replaced hs ht hsame
  exact ⟨hs, ht, hsame, hcongr rfl, _, hload, rfl, hvalid _ _ _ hload⟩

/-- A text with no workers is refused, although the number would be replaced. -/
theorem replaced_zero_is_refused :
  ofText? "worker_threads = 0" = some { workers := 0 } ∧ ofText? "" = some {} ∧
    (∀ x : Setting, ¬ x.Replaced fourWorkers → x.Same { workers := 0 } {}) ∧
    load "" fourWorkers = .ok { workers := 4 } ∧
    load "worker_threads = 0" fourWorkers = .error (.zero .workers)
  := by
  have hs : ofText? "worker_threads = 0" = some { workers := 0 } := by decide +kernel
  have ht : ofText? "" = some {} := by decide +kernel
  refine ⟨hs, ht, same_but_workers 0 8, ?_, ?_⟩
  · rw [load, parse_of_ofText? ht]
    rfl
  · rw [load, parse_of_ofText? hs]
    rfl

end Settings

end ChainLedger
