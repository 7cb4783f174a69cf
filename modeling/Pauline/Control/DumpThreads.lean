import Mathlib.Tactic
import Pauline.Library.Clocked

/-!
# The script thread and the dump threads

The script thread starts a thread for each dump and stops a dump by a flag. The
threads share `dump_running`, `stop_process` and the command line of the dump;
each access to one of them is a step.
-/

set_option autoImplicit false

namespace Pauline.DumpThreads

inductive Stage where
  /-- `pthread_create` has returned. -/
  | created
  /-- In `diskdump_thread`, before `readdisk` sets `dump_running`. -/
  | parsing
  /-- In `readdisk`, no track is captured. -/
  | reading
  | capturing
  /-- `stop_process` has been read as set. -/
  | stopping
  /-- `dump_running` is cleared, `readdisk` has not returned. -/
  | leaving
  | gone
deriving DecidableEq

structure Thread where
  /-- The command line of the command that has started it. -/
  line : String
  /-- What it has found in `thread_dump_cmdline`, at each `get_param`. -/
  seen : List String
  stage : Stage
deriving DecidableEq

inductive Script where
  | idle
  /-- `cmd_dump` has read `dump_running` as 0. -/
  | checked (line : String)
  /-- The command line is copied. -/
  | copied (line : String)
  /-- `cmd_stop` has set `stop_process`. -/
  | stopRequested
  /-- `cmd_stop` has read `dump_running` as 0. -/
  | stopSeen
deriving DecidableEq

structure State where
  dump_running : Bool
  stop_process : Bool
  thread_dump_cmdline : String
  threads : ℕ → Option Thread
  /-- The number of threads started. -/
  count : ℕ
  script : Script
  /-- `cmd_stop` has returned, and no dump command has been executed since. -/
  stopped : Bool

def initial : State := ⟨false,false,"",fun _ => none,0,.idle,false⟩

/-- `get_param` is called for 16 numbers, then for the name, the comment, the
drive, the operator, the second comment and the index mode. -/
def paramReads : ℕ := 22

inductive Choice where
  | go
  /-- The next side: `stop_process` is read. -/
  | test
  /-- The loops are over, or the dump fails. -/
  | finish
deriving DecidableEq

inductive Act where
  | dump (line : String)
  | copy
  | create (success : Bool)
  | stop
  | poll
  | clear
  | thread (i : ℕ) (c : Choice)
deriving DecidableEq

def State.put (s : State) (i : ℕ) (t : Thread) : State :=
  { s with threads := Function.update s.threads i (some t) }

def stepThread (i : ℕ) (t : Thread) (c : Choice) (s : State) : State :=
  match t.stage, c with
  | .created, .go => s.put i { t with stage := .parsing }
  | .parsing, .go =>
    if t.seen.length < paramReads then
      s.put i { t with seen := t.seen ++ [s.thread_dump_cmdline] }
    else { s.put i { t with stage := .reading } with dump_running := true }
  | .reading, .test =>
    if s.stop_process then s.put i { t with stage := .stopping }
    else s.put i { t with stage := .capturing }
  | .capturing, .go => s.put i { t with stage := .reading }
  | .reading, .finish | .stopping, .go =>
    { s.put i { t with stage := .leaving } with dump_running := false }
  | .leaving, .go => s.put i { t with stage := .gone }
  | _, _ => s

def step (a : Act) (s : State) : State :=
  match a, s.script with
  | .dump line, .idle =>
    if s.dump_running then { s with stopped := false }
    else { s with stopped := false, script := .checked line }
  | .copy, .checked line => { s with thread_dump_cmdline := line, script := .copied line }
  | .create true, .copied line =>
    { s.put s.count ⟨line,[],.created⟩ with count := s.count + 1, script := .idle }
  | .create false, .copied _ => { s with script := .idle }
  | .stop, .idle => { s with stop_process := true, script := .stopRequested }
  | .poll, .stopRequested =>
    if s.dump_running then s else { s with script := .stopSeen }
  | .clear, .stopSeen => { s with stop_process := false, script := .idle, stopped := true }
  | .thread i c, _ =>
    match s.threads i with
    | none => s
    | some t => stepThread i t c s
  | _, _ => s

/-! ## What is asked -/

def Stage.inDump : Stage → Bool
  | .created | .gone => false
  | _ => true

def Stage.executing : Stage → Bool
  | .created | .parsing => false
  | _ => true

def Stage.holds : Stage → Bool
  | .reading | .capturing | .stopping => true
  | _ => false

theorem Stage.holds_executing (stage : Stage) (h : stage.holds = true) :
    stage.executing = true := by
  cases stage <;> first | rfl | exact h

def Stage.hidden : Stage → Bool
  | .created | .parsing | .leaving => true
  | _ => false

def OneDump (s : State) : Prop :=
  ∀ i j t u, s.threads i = some t → s.threads j = some u →
    t.stage.inDump = true → u.stage.inDump = true → i = j

def OwnLines (s : State) : Prop :=
  ∀ i t, s.threads i = some t → t.stage.executing = true → t.seen = List.replicate paramReads t.line

def NoneHidden (s : State) : Prop := ∀ i t, s.threads i = some t → t.stage.hidden = false

def DumpMeets (a : Act) (s : State) : Prop :=
  ∀ line, a = .dump line → s.script = .idle → s.dump_running = false → NoneHidden s

/-! ## What a step does to the threads -/

theorem put_self (s : State) (i : ℕ) (t : Thread) : (s.put i t).threads i = some t := by
  simp [State.put]

theorem put_other (s : State) (i j : ℕ) (t : Thread) (h : j ≠ i) :
    (s.put i t).threads j = s.threads j := by
  simp [State.put, h]

inductive Goes (s : State) (t : Thread) : Thread → Bool → Prop where
  | start (h : t.stage = .created) : Goes s t { t with stage := .parsing } s.dump_running
  | read (h : t.stage = .parsing) (hmore : t.seen.length < paramReads) :
      Goes s t { t with seen := t.seen ++ [s.thread_dump_cmdline] } s.dump_running
  | enter (h : t.stage = .parsing) (hall : ¬ t.seen.length < paramReads) :
      Goes s t { t with stage := .reading } true
  | hold (h : t.stage.holds = true) (stage : Stage) (h' : stage.holds = true) :
      Goes s t { t with stage := stage } s.dump_running
  | leave (h : t.stage.holds = true) : Goes s t { t with stage := .leaving } false
  | done (h : t.stage = .leaving) : Goes s t { t with stage := .gone } s.dump_running

theorem stepThread_cases (i : ℕ) (t : Thread) (c : Choice) (s : State) :
    stepThread i t c s = s ∨
      ∃ t' running, Goes s t t' running ∧
        stepThread i t c s = { s.put i t' with dump_running := running } := by
  have hgo : ∀ t', Goes s t t' s.dump_running →
      ∃ t'' running, Goes s t t'' running ∧
        s.put i t' = { s.put i t'' with dump_running := running } :=
    fun t' h => ⟨t',s.dump_running,h,rfl⟩
  unfold stepThread
  split
  next h => exact Or.inr (hgo _ (.start h))
  next h =>
    split
    next hmore => exact Or.inr (hgo _ (.read h hmore))
    next hall => exact Or.inr ⟨_,_,.enter h hall,rfl⟩
  next h =>
    split
    · exact Or.inr (hgo _ (.hold (by rw [h]; rfl) .stopping rfl))
    · exact Or.inr (hgo _ (.hold (by rw [h]; rfl) .capturing rfl))
  next h => exact Or.inr (hgo _ (.hold (by rw [h]; rfl) .reading rfl))
  next h => exact Or.inr ⟨_,_,.leave (by rw [h]; rfl),rfl⟩
  next h => exact Or.inr ⟨_,_,.leave (by rw [h]; rfl),rfl⟩
  next h => exact Or.inr (hgo _ (.done h))
  next => exact Or.inl rfl

theorem Goes.alive {s : State} {t t' : Thread} {b : Bool} (h : Goes s t t' b) :
    t.stage ≠ .gone := by
  intro hgone
  cases h <;> simp_all [Stage.holds]

theorem Goes.line {s : State} {t t' : Thread} {b : Bool} (h : Goes s t t' b) : t'.line = t.line := by
  cases h <;> rfl

/-! ## One thread at a time -/

def AllGone (s : State) : Prop := ∀ i t, s.threads i = some t → t.stage = .gone

def Starting (s : State) : Prop := (∃ line, s.script = .checked line) ∨ ∃ line, s.script = .copied line

def ReadsOwn (t : Thread) : Prop :=
  t.seen = List.replicate t.seen.length t.line ∧
    (t.stage.executing = true → t.seen.length = paramReads) ∧ t.seen.length ≤ paramReads

structure Single (s : State) : Prop where
  one : ∀ i j t u, s.threads i = some t → s.threads j = some u →
    t.stage ≠ .gone → u.stage ≠ .gone → i = j
  holds : ∀ i t, s.threads i = some t → t.stage.holds = true → s.dump_running = true
  starting : Starting s → AllGone s
  own : ∀ i t, s.threads i = some t → t.stage ≠ .gone → s.thread_dump_cmdline = t.line
  reads : ∀ i t, s.threads i = some t → ReadsOwn t
  copied : ∀ line, s.script = .copied line → s.thread_dump_cmdline = line
  fresh : ∀ i, s.count ≤ i → s.threads i = none

theorem initial_single : Single initial where
  one := by simp [initial]
  holds := by simp [initial]
  starting := by simp [Starting, initial]
  own := by simp [initial]
  reads := by simp [initial]
  copied := by simp [initial]
  fresh := by simp [initial]

theorem Single.others_gone {s : State} (h : Single s) {i j : ℕ} {t u : Thread}
    (hi : s.threads i = some t) (hj : s.threads j = some u) (ht : t.stage ≠ .gone) (hne : j ≠ i) :
    u.stage = .gone := by
  by_contra hu
  exact hne (h.one i j t u hi hj ht hu).symm

theorem Goes.readsOwn {s : State} {t t' : Thread} {b : Bool} (h : Goes s t t' b)
    (hr : ReadsOwn t) (hown : s.thread_dump_cmdline = t.line) : ReadsOwn t' := by
  obtain ⟨hseen, hexec, hle⟩ := hr
  cases h with
  | start h => exact ⟨hseen,fun hx => absurd hx Bool.false_ne_true,hle⟩
  | read h hmore =>
    refine ⟨?_,fun hx => ?_,?_⟩
    · simp only [List.length_append, List.length_singleton, List.replicate_succ', ← hseen, hown]
    · simp [h, Stage.executing] at hx
    · simp only [List.length_append, List.length_singleton]
      omega
  | enter h hall => exact ⟨hseen,fun _ => by simp only; omega,hle⟩
  | hold h stage h' => exact ⟨hseen,fun _ => hexec (Stage.holds_executing _ h),hle⟩
  | leave h => exact ⟨hseen,fun _ => hexec (Stage.holds_executing _ h),hle⟩
  | done h => exact ⟨hseen,fun _ => hexec (by rw [h]; rfl),hle⟩

theorem Single.goes {s : State} (h : Single s) {i : ℕ} {t t' : Thread} {b : Bool}
    (hi : s.threads i = some t) (hg : Goes s t t' b) :
    Single { s.put i t' with dump_running := b } := by
  have halive := hg.alive
  have hcase : ∀ j u, (s.put i t').threads j = some u → j = i ∧ u = t' ∨
      j ≠ i ∧ s.threads j = some u ∧ u.stage = .gone := by
    intro j u hj
    by_cases hne : j = i
    · subst hne
      rw [put_self] at hj
      exact Or.inl ⟨rfl,(Option.some.inj hj).symm⟩
    · rw [put_other s i j t' hne] at hj
      exact Or.inr ⟨hne,hj,h.others_gone hi hj halive hne⟩
  refine
    { one := fun j k u v hj hk hu hv => ?_
      holds := fun j u hj hu => ?_
      starting := fun hs => ?_
      own := fun j u hj hu => ?_
      reads := fun j u hj => ?_
      copied := h.copied
      fresh := fun j hj => ?_ }
  · obtain ⟨rfl, -⟩ | ⟨-, -, hgone⟩ := hcase j u hj
    · obtain ⟨rfl, -⟩ | ⟨-, -, hgone⟩ := hcase k v hk
      · rfl
      · exact absurd hgone hv
    · exact absurd hgone hu
  · obtain ⟨rfl, rfl⟩ | ⟨-, -, hgone⟩ := hcase j u hj
    · cases hg with
      | start h => exact absurd hu Bool.false_ne_true
      | read hstage hmore => simp [hstage, Stage.holds] at hu
      | enter hstage hall => rfl
      | hold hholds stage h' => exact h.holds j t hi hholds
      | leave hholds => exact absurd hu Bool.false_ne_true
      | done hstage => exact absurd hu Bool.false_ne_true
    · rw [hgone] at hu
      exact absurd hu (by decide)
  · exact absurd (h.starting hs i t hi) halive
  · obtain ⟨rfl, rfl⟩ | ⟨-, -, hgone⟩ := hcase j u hj
    · exact (h.own j t hi halive).trans hg.line.symm
    · exact absurd hgone hu
  · obtain ⟨rfl, rfl⟩ | ⟨-, hj, -⟩ := hcase j u hj
    · exact hg.readsOwn (h.reads j t hi) (h.own j t hi halive)
    · exact h.reads j u hj
  · have hne : j ≠ i := by
      rintro rfl
      simp [h.fresh j hj] at hi
    exact (put_other s i j t' hne).trans (h.fresh j hj)

/-- The script thread does something that no thread depends on. -/
theorem Single.script {s : State} (h : Single s) (script : Script) (stop stopped : Bool)
    (hs : Starting { s with script := script } → AllGone s)
    (hcopied : ∀ line, script = .copied line → s.thread_dump_cmdline = line) :
    Single { s with script := script, stop_process := stop, stopped := stopped } where
  one := h.one
  holds := h.holds
  starting := hs
  own := h.own
  reads := h.reads
  copied := hcopied
  fresh := h.fresh

theorem Single.all_gone {s : State} (h : Single s) (hrun : s.dump_running = false)
    (hhidden : NoneHidden s) : AllGone s := by
  intro i t hi
  have hnot := hhidden i t hi
  have hholds := h.holds i t hi
  cases hs : t.stage <;> simp_all [Stage.hidden, Stage.holds]

theorem Single.create {s : State} (h : Single s) (line : String) (hgone : AllGone s)
    (hline : s.thread_dump_cmdline = line) :
    Single { s.put s.count ⟨line,[],.created⟩ with count := s.count + 1, script := .idle } := by
  have hcase : ∀ j u, (s.put s.count ⟨line,[],.created⟩).threads j = some u →
      j = s.count ∧ u = ⟨line,[],.created⟩ ∨ s.threads j = some u ∧ u.stage = .gone := by
    intro j u hj
    by_cases hne : j = s.count
    · subst hne
      rw [put_self] at hj
      exact Or.inl ⟨rfl,(Option.some.inj hj).symm⟩
    · rw [put_other _ _ _ _ hne] at hj
      exact Or.inr ⟨hj,hgone j u hj⟩
  refine
    { one := fun j k u v hj hk hu hv => ?_
      holds := fun j u hj hu => ?_
      starting := by simp [Starting]
      own := fun j u hj hu => ?_
      reads := fun j u hj => ?_
      copied := by simp
      fresh := fun j hj => ?_ }
  · obtain ⟨rfl, -⟩ | ⟨-, hg⟩ := hcase j u hj
    · obtain ⟨rfl, -⟩ | ⟨-, hg⟩ := hcase k v hk
      · rfl
      · exact absurd hg hv
    · exact absurd hg hu
  · obtain ⟨-, rfl⟩ | ⟨-, hg⟩ := hcase j u hj
    · exact absurd hu Bool.false_ne_true
    · rw [hg] at hu
      exact absurd hu Bool.false_ne_true
  · obtain ⟨-, rfl⟩ | ⟨-, hg⟩ := hcase j u hj
    · exact hline
    · exact absurd hg hu
  · obtain ⟨-, rfl⟩ | ⟨hj, -⟩ := hcase j u hj
    · exact ⟨rfl,fun hx => absurd hx Bool.false_ne_true,Nat.zero_le _⟩
    · exact h.reads j u hj
  · have hlt : s.count < j := hj
    exact (put_other _ _ _ _ hlt.ne').trans (h.fresh j hlt.le)

theorem step_single (a : Act) (s : State) (h : Single s) (ha : DumpMeets a s) :
    Single (step a s) := by
  unfold step
  split
  next line hscript =>
    split
    next => exact h.script s.script s.stop_process false h.starting h.copied
    next hrun =>
      refine h.script (.checked line) s.stop_process false (fun _ => ?_) (by simp)
      exact h.all_gone (by simpa using hrun) (ha line rfl hscript (by simpa using hrun))
  next line hscript =>
    have hgone := h.starting (Or.inl ⟨line,hscript⟩)
    exact
      { one := h.one
        holds := h.holds
        starting := fun _ => hgone
        own := fun i t hi ht => absurd (hgone i t hi) ht
        reads := h.reads
        copied := fun line' heq => by simpa using heq
        fresh := h.fresh }
  next line hscript => exact h.create line (h.starting (Or.inr ⟨line,hscript⟩)) (h.copied line hscript)
  next line hscript => exact h.script .idle s.stop_process s.stopped (by simp [Starting]) (by simp)
  next hscript => exact h.script .stopRequested true s.stopped (by simp [Starting]) (by simp)
  next hscript =>
    split
    · exact h
    · exact h.script .stopSeen s.stop_process s.stopped (by simp [Starting]) (by simp)
  next hscript => exact h.script .idle false true (by simp [Starting]) (by simp)
  next i c =>
    split
    · exact h
    next t hi =>
      obtain heq | ⟨t', running, hg, heq⟩ := stepThread_cases i t c s
      · rw [heq]
        exact h
      · rw [heq]
        exact h.goes hi hg
  next => exact h

theorem Single.oneDump {s : State} (h : Single s) : OneDump s := by
  intro i j t u hi hj ht hu
  refine h.one i j t u hi hj ?_ ?_
  · rintro hgone
    rw [hgone] at ht
    exact Bool.false_ne_true ht
  · rintro hgone
    rw [hgone] at hu
    exact Bool.false_ne_true hu

theorem Single.ownLines {s : State} (h : Single s) : OwnLines s := by
  intro i t hi hexec
  obtain ⟨hseen, hlength, -⟩ := h.reads i t hi
  rwa [hlength hexec] at hseen

/-! ## After a hidden thread -/

def Reach : State → State → Prop := Clocked.Reach step fun _ _ => True

theorem Reach.act {s t : State} (h : Reach s t) (a : Act) : Reach s (step a t) :=
  Clocked.Reach.tick h a trivial

/-- The thread of a command that has passed the check can start at once. -/
theorem dump_starts (s : State) (line : String) (hscript : s.script = .idle)
    (hrun : s.dump_running = false) :
    ∃ u, Reach (step (.dump line) s) u ∧
      u.threads = Function.update s.threads s.count (some ⟨line,[],.parsing⟩) := by
  refine ⟨step (.thread s.count .go) (step (.create true) (step .copy (step (.dump line) s))),?_,?_⟩
  · have hcopy : Reach (step (.dump line) s) _ := Reach.act (Clocked.Reach.refl _) .copy
    exact (hcopy.act (.create true)).act _
  · simp [step, hscript, hrun, State.put, stepThread]

theorem hidden_starts (s : State) (i : ℕ) (t : Thread) (hi : s.threads i = some t)
    (hidden : t.stage.hidden = true) :
    ∃ u t', Reach s u ∧ u.threads i = some t' ∧ t'.stage.inDump = true ∧
      ∀ j, j ≠ i → u.threads j = s.threads j := by
  cases hs : t.stage with
  | created =>
    have hstep : step (.thread i .go) s = s.put i { t with stage := .parsing } := by
      simp [step, hi, stepThread, hs]
    refine ⟨step (.thread i .go) s,{ t with stage := .parsing },
      Reach.act (Clocked.Reach.refl s) _,?_,rfl,fun j hj => ?_⟩
    · rw [hstep, put_self]
    · rw [hstep, put_other s i j _ hj]
  | parsing => exact ⟨s,t,Clocked.Reach.refl s,hi,by rw [hs]; rfl,fun _ _ => rfl⟩
  | leaving => exact ⟨s,t,Clocked.Reach.refl s,hi,by rw [hs]; rfl,fun _ _ => rfl⟩
  | reading | capturing | stopping | gone =>
    rw [hs] at hidden
    exact absurd hidden Bool.false_ne_true

/-- A dump command that is accepted beside a hidden thread can lead to two
dumps. -/
theorem second_dump (s : State) (h : Single s) (line : String) (hscript : s.script = .idle)
    (hrun : s.dump_running = false) (hhidden : ¬ NoneHidden s) :
    ∃ u, Reach (step (.dump line) s) u ∧ ¬ OneDump u := by
  obtain ⟨i, t, hi, hidden⟩ : ∃ i t, s.threads i = some t ∧ t.stage.hidden = true := by
    simpa [NoneHidden] using hhidden
  have hne : i ≠ s.count := by
    rintro rfl
    simp [h.fresh s.count (le_refl _)] at hi
  obtain ⟨u, hu, hthreads⟩ := dump_starts s line hscript hrun
  have hui : u.threads i = some t := by rw [hthreads, Function.update_of_ne hne, hi]
  obtain ⟨v, t', hv, hvi, hin, hother⟩ := hidden_starts u i t hui hidden
  refine ⟨v,hu.trans hv,fun hone => hne ?_⟩
  have hvc : v.threads s.count = some ⟨line,[],.parsing⟩ := by
    rw [hother s.count hne.symm, hthreads, Function.update_self]
  exact hone i s.count t' _ hvi hvc hin rfl

/-- In every run in which `cmd_dump` reads `dump_running` as 0 only where no
thread is hidden, there is one dump at a time and each is executed with its own
parameters; a dump command accepted beside a hidden thread can lead to two. -/
theorem one_dump_at_a_time (s : State) (hrun : Clocked.Reach step DumpMeets initial s) :
    OneDump s ∧ OwnLines s ∧
      ∀ line, s.script = .idle → s.dump_running = false → ¬ DumpMeets (.dump line) s →
        ∃ u, Reach (step (.dump line) s) u ∧ ¬ OneDump u := by
  have h : Single s := hrun.invariant Single initial_single fun a s ha h => step_single a s h ha
  refine ⟨h.oneDump,h.ownLines,fun line hscript hidle hnot => ?_⟩
  refine second_dump s h line hscript hidle fun hnone => hnot ?_
  exact fun _ _ _ _ => hnone

/-! ## Stop -/

/-- `cmd_dump` and `cmd_stop` read `dump_running` as 0 only where no thread is
hidden. -/
def StopMeets (a : Act) (s : State) : Prop :=
  DumpMeets a s ∧
    (a = .poll → s.script = .stopRequested → s.dump_running = false → NoneHidden s)

structure Stopped (s : State) : Prop where
  safe : s.script = .stopSeen ∨ s.stopped = true → AllGone s
  running : Starting s → s.stopped = false

theorem step_stopped (a : Act) (s : State) (hsingle : Single s) (h : Stopped s)
    (ha : StopMeets a s) : Stopped (step a s) := by
  unfold step
  split
  next line hscript =>
    split
    next => exact ⟨by simp [hscript],fun _ => rfl⟩
    next => exact ⟨by simp,fun _ => rfl⟩
  next line hscript =>
    have hrunning := h.running (Or.inl ⟨line,hscript⟩)
    exact ⟨by simp [hrunning],fun _ => hrunning⟩
  next line hscript =>
    have hrunning : s.stopped = false := h.running (Or.inr ⟨line,hscript⟩)
    exact ⟨by simp [State.put, hrunning],by simp [Starting]⟩
  next line hscript =>
    have hrunning := h.running (Or.inr ⟨line,hscript⟩)
    exact ⟨by simp [hrunning],by simp [Starting]⟩
  next hscript => exact ⟨fun hs => h.safe (Or.inr (by simpa using hs)),by simp [Starting]⟩
  next hscript =>
    split
    next => exact h
    next hrun =>
      have hgone := hsingle.all_gone (by simpa using hrun) (ha.2 rfl hscript (by simpa using hrun))
      exact ⟨fun _ => hgone,by simp [Starting]⟩
  next hscript => exact ⟨fun _ => h.safe (Or.inl hscript),by simp [Starting]⟩
  next i c =>
    split
    next => exact h
    next t hi =>
      obtain heq | ⟨t', running, hg, heq⟩ := stepThread_cases i t c s
      · rw [heq]
        exact h
      · rw [heq]
        refine ⟨fun hs => ?_,h.running⟩
        exact absurd (h.safe hs i t hi) hg.alive
  next => exact h

/-- In every run in which `cmd_dump` and `cmd_stop` read `dump_running` as 0 only
where no thread is hidden, no dump is left when `cmd_stop` has returned, until
the next dump command; where `cmd_stop` reads it as 0 beside a hidden thread it
can return before that thread has done its dump. -/
theorem stop_stops (s : State) (hrun : Clocked.Reach step StopMeets initial s) :
    (s.stopped = true → AllGone s) ∧
      (s.script = .stopRequested → s.dump_running = false → ¬ StopMeets .poll s →
        (step .clear (step .poll s)).stopped = true ∧ ¬ AllGone (step .clear (step .poll s))) := by
  have h : Single s ∧ Stopped s :=
    hrun.invariant (fun s => Single s ∧ Stopped s)
      ⟨initial_single,by simp [initial],by simp [initial]⟩
      fun a s ha h => ⟨step_single a s h.1 ha.1,step_stopped a s h.1 h.2 ha⟩
  refine ⟨fun hs => h.2.safe (Or.inr hs),fun hscript hrunning hnot => ?_⟩
  have hstep : step .clear (step .poll s) =
      { s with stop_process := false, script := .idle, stopped := true } := by
    simp [step, hscript, hrunning]
  rw [hstep]
  refine ⟨rfl,fun hgone => hnot ⟨fun line heq => by simp at heq,fun _ _ _ i t hi => ?_⟩⟩
  rw [hgone i t hi]
  rfl

def afterActs (acts : List Act) (s : State) : State := acts.foldl (fun s a => step a s) s

def command (line : String) : List Act := [.dump line,.copy,.create true]

def toCapture (i : ℕ) : List Act := List.replicate (2 + paramReads) (.thread i .go) ++ [.thread i .test]

def Act.checks : Act → Bool
  | .dump _ | .poll => true
  | _ => false

def State.shows (s : State) : Bool :=
  (List.range s.count).all fun i => (s.threads i).all fun t => !t.stage.hidden

def SafeAt (a : Act) (s : State) : Prop :=
  a.checks = false ∨ s.dump_running = true ∨ s.shows = true

instance (a : Act) (s : State) : Decidable (SafeAt a s) :=
  inferInstanceAs (Decidable (_ ∨ _ ∨ _))

theorem Single.noneHidden {s : State} (h : Single s) (hshows : s.shows = true) : NoneHidden s := by
  intro i t hi
  have hlt : i < s.count := by
    by_contra hle
    rw [h.fresh i (not_lt.mp hle)] at hi
    cases hi
  have hall := List.all_eq_true.mp hshows i (List.mem_range.mpr hlt)
  simpa [hi] using hall

theorem Single.stopMeets {s : State} (h : Single s) (a : Act) (ha : SafeAt a s) :
    StopMeets a s := by
  obtain ha | ha | ha := ha
  · constructor
    · rintro line rfl
      cases ha
    · rintro rfl
      cases ha
  · constructor
    · exact fun _ _ _ hrun => absurd (ha.symm.trans hrun) Bool.noConfusion
    · exact fun _ _ hrun => absurd (ha.symm.trans hrun) Bool.noConfusion
  · exact ⟨fun _ _ _ _ => h.noneHidden ha,fun _ _ _ => h.noneHidden ha⟩

theorem reach_of_safe (acts : List Act) (s : State) (hs : Single s)
    (h : Clocked.Allows step SafeAt acts s) : Clocked.Reach step StopMeets s (afterActs acts s) := by
  induction acts generalizing s with
  | nil => exact Clocked.Reach.refl s
  | cons a acts ih =>
    have ha : StopMeets a s := hs.stopMeets a h.1
    have hfirst : Clocked.Reach step StopMeets s (step a s) := (Clocked.Reach.refl s).tick a ha
    exact hfirst.trans (ih (step a s) (step_single a s hs ha.1) h.2)

/-- A dump that ends after its first side, a dump command that is refused before that,
and the next dump. -/
def twoDumps : List Act :=
  command "dump 0" ++ toCapture 0 ++
    [.thread 0 .go,.dump "dump 1",.thread 0 .finish,.thread 0 .go] ++
    command "dump 1" ++ toCapture 1

def secondDump : State := afterActs twoDumps initial

theorem secondDump_reach : Clocked.Reach step StopMeets initial secondDump :=
  reach_of_safe twoDumps initial initial_single (by decide +kernel)

theorem one_dump_at_a_time_second :
    ((secondDump.threads 1).map Thread.stage = some .capturing ∧
      (secondDump.threads 1).map Thread.seen = some (List.replicate paramReads "dump 1")) ∧
    OneDump secondDump ∧ OwnLines secondDump ∧
      ∀ line, secondDump.script = .idle → secondDump.dump_running = false →
        ¬ DumpMeets (.dump line) secondDump →
        ∃ u, Reach (step (.dump line) secondDump) u ∧ ¬ OneDump u :=
  ⟨by decide +kernel,one_dump_at_a_time secondDump (secondDump_reach.mono fun _ _ h => h.1)⟩

/-- `cmd_stop` finds `dump_running` set at its first look, and the thread of the
second dump is done at the next one. -/
def stopSecond : List Act :=
  twoDumps ++ [.stop,.poll,.thread 1 .go,.thread 1 .test,.thread 1 .go,.thread 1 .go,.poll,.clear]

def afterStop : State := afterActs stopSecond initial

theorem stop_stops_second :
    (afterStop.stopped = true ∧ afterStop.count = 2) ∧
      (afterStop.stopped = true → AllGone afterStop) ∧
      (afterStop.script = .stopRequested → afterStop.dump_running = false →
        ¬ StopMeets .poll afterStop →
        (step .clear (step .poll afterStop)).stopped = true ∧
          ¬ AllGone (step .clear (step .poll afterStop))) :=
  ⟨by decide +kernel,
    stop_stops afterStop (reach_of_safe stopSecond initial initial_single (by decide +kernel))⟩

/-- Two dump commands, the second before the thread of the first is in
`readdisk`: both threads go on, and the first reads the line of the second. -/
theorem two_dumps_at_once :
    ∃ s, Reach initial s ∧ s.thread_dump_cmdline = "dump 1" ∧
      (s.threads 0).map Thread.line = some "dump 0" ∧
      (s.threads 0).map Thread.stage = some .parsing ∧
      (s.threads 1).map Thread.stage = some .parsing ∧ ¬ OneDump s := by
  refine ⟨afterActs (command "dump 0" ++ command "dump 1" ++ [.thread 0 .go,.thread 1 .go]) initial,
    Clocked.Reach.run _ (fun _ _ _ => trivial) initial,rfl,rfl,rfl,rfl,fun hone => ?_⟩
  exact absurd (hone 0 1 ⟨"dump 0",[],.parsing⟩ ⟨"dump 1",[],.parsing⟩ rfl rfl rfl rfl) (by decide)

/-- A stop right after the dump command, before the thread is in `readdisk`: the
command returns, and the dump captures its first side afterwards. -/
theorem stop_too_early :
    ∃ s, Reach initial s ∧ s.stopped = true ∧
      (s.threads 0).map Thread.stage = some .capturing := by
  refine ⟨afterActs (command "dump 0" ++ [.stop,.poll,.clear] ++ toCapture 0) initial,
    Clocked.Reach.run _ (fun _ _ _ => trivial) initial,?_,?_⟩
  · decide +kernel
  · decide +kernel

end Pauline.DumpThreads
