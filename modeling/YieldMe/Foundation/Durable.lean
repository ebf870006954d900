/-
  Foundation/Durable.lean --- programs with durable storage and volatile memory.

  A machine owns a durable store and, while a process runs, a volatile memory.
  One step of the program reads both and yields an effect: the durable writes it
  makes, in order, the calls it makes to the outside, and either the memory it
  leaves or the trap that ends the process.

  Two step relations come from one machine.  `Step` runs every step to its end;
  `CrashStep` also lets the process be killed between any two durable writes of
  a step, in which case exactly the writes made so far survive.  In both, a
  process that has ended can be launched again from what is stored.

  The rules proved here are the two invariant rules.  For `CrashStep` the
  stored part of the invariant must hold after every initial part of the writes
  of a step, which is where the order of the writes matters.
-/
import YieldMe.Foundation.Run

set_option autoImplicit false

namespace Durable

open Transition

/-- What one step of a program does. -/
structure Effect (ω κ τ μ : Type) where
  /-- durable writes, in the order they are made -/
  writes : List ω
  /-- calls to the outside, in the order they are made -/
  calls : List κ
  /-- the memory the step leaves, or the trap that ended the process -/
  next : Except τ μ

namespace Effect

variable {ω κ τ μ ν : Type}

/-- A step that only changes memory. -/
def quiet (m : μ) : Effect ω κ τ μ := ⟨[], [], .ok m⟩

/-- A step that traps before it writes or calls anything. -/
def trap (t : τ) : Effect ω κ τ μ := ⟨[], [], .error t⟩

/-- The same effect inside a larger memory. -/
def map (f : μ → ν) (e : Effect ω κ τ μ) : Effect ω κ τ ν :=
  ⟨e.writes, e.calls, e.next.map f⟩

theorem map_next_ok {f : μ → ν} {e : Effect ω κ τ μ} {n : ν}
    (h : (e.map f).next = .ok n) : ∃ m, e.next = .ok m ∧ f m = n := by
  rcases e with ⟨writes, calls, trap | m⟩
  · cases h
  · exact ⟨m, rfl, Except.ok.inj h⟩

/-- A law of the memory a step leaves, when the step leaves one. -/
theorem forall_next_ok {P : μ → Prop} {writes : List ω} {calls : List κ} {m : μ}
    (h : P m) : ∀ m', (⟨writes, calls, .ok m⟩ : Effect ω κ τ μ).next = .ok m' → P m' := by
  intro m' hnext
  have hm := Except.ok.inj hnext
  rwa [← hm]

theorem forall_next_error {P : μ → Prop} {writes : List ω} {calls : List κ} (t : τ) :
    ∀ m', (⟨writes, calls, .error t⟩ : Effect ω κ τ μ).next = .ok m' → P m' := by
  intro m' hnext
  cases hnext

theorem map_next_error {f : μ → ν} {e : Effect ω κ τ μ} {t : τ}
    (h : (e.map f).next = .error t) : e.next = .error t := by
  rcases e with ⟨writes, calls, trap | m⟩
  · obtain rfl : trap = t := Except.error.inj h
    rfl
  · cases h

end Effect

/-- A program over a durable store `δ` written by `ω`, with volatile memory
`μ`, actions `α`, outside calls `κ` and traps `τ`. -/
structure Machine (δ ω κ τ μ α : Type) where
  /-- one durable write -/
  write : δ → ω → δ
  /-- the memory of a freshly launched process -/
  boot : δ → μ
  /-- one step; `none` when the action is not possible -/
  step : δ → μ → α → Option (Effect ω κ τ μ)

/-- An installed program: what it has stored, and its process if one runs. -/
structure State (δ μ : Type) where
  stored : δ
  memory : Option μ

/-- What can happen to an installed program. -/
inductive Label (α : Type) where
  /-- one step of the running process -/
  | act (action : α)
  /-- the process is ended between two steps -/
  | terminate
  /-- a process is started -/
  | launch
  /-- the process is killed inside a step, after `written` durable writes -/
  | kill (action : α) (written : Nat)

section Machines

variable {δ ω κ τ μ α : Type} (M : Machine δ ω κ τ μ α)

/-- A list of durable writes, in order. -/
def Machine.writeAll (d : δ) (writes : List ω) : δ := writes.foldl M.write d

@[simp] theorem Machine.writeAll_nil (d : δ) : M.writeAll d [] = d := rfl

@[simp] theorem Machine.writeAll_cons (d : δ) (w : ω) (ws : List ω) :
    M.writeAll d (w :: ws) = M.writeAll (M.write d w) ws := rfl

/-- What every single write keeps, every initial part of a list of writes
keeps. -/
theorem Machine.writeAll_take_of_forall (I : δ → Prop) {writes : List ω}
    (hwrite : ∀ d, ∀ w ∈ writes, I d → I (M.write d w)) :
    ∀ (k : Nat) (d : δ), I d → I (M.writeAll d (writes.take k)) := by
  induction writes with
  | nil => intro k d hd; simpa using hd
  | cons w ws ih =>
      intro k d hd
      cases k with
      | zero => exact hd
      | succ k =>
          have hrest : ∀ d, ∀ w' ∈ ws, I d → I (M.write d w') :=
            fun d w' hw' => hwrite d w' (List.mem_cons_of_mem w hw')
          exact ih hrest k _ (hwrite d w List.mem_cons_self hd)

/-! ## The two step relations -/

/-- Steps that run to their end, and the start and end of processes between
steps. -/
inductive Machine.Step : State δ μ → Label α → State δ μ → Prop
  | act {d : δ} {m : μ} {a : α} {e : Effect ω κ τ μ} (h : M.step d m a = some e) :
      Machine.Step ⟨d, some m⟩ (.act a) ⟨M.writeAll d e.writes, e.next.toOption⟩
  | terminate {d : δ} {m : μ} : Machine.Step ⟨d, some m⟩ .terminate ⟨d, none⟩
  | launch {d : δ} : Machine.Step ⟨d, none⟩ .launch ⟨d, some (M.boot d)⟩

/-- Steps, or a step cut short after some of its durable writes. -/
inductive Machine.CrashStep : State δ μ → Label α → State δ μ → Prop
  | whole {s s' : State δ μ} {l : Label α} (h : M.Step s l s') :
      Machine.CrashStep s l s'
  | kill {d : δ} {m : μ} {a : α} {e : Effect ω κ τ μ} {k : Nat}
      (h : M.step d m a = some e) (hk : k ≤ e.writes.length) :
      Machine.CrashStep ⟨d, some m⟩ (.kill a k) ⟨M.writeAll d (e.writes.take k), none⟩

/-- A step as a function of the state and the label. -/
def Machine.perform : State δ μ → Label α → Option (State δ μ)
  | ⟨d, some m⟩, .act a =>
      (M.step d m a).map fun e => ⟨M.writeAll d e.writes, e.next.toOption⟩
  | ⟨d, some _⟩, .terminate => some ⟨d, none⟩
  | ⟨d, none⟩, .launch => some ⟨d, some (M.boot d)⟩
  | _, _ => none

/-- A step or a cut step as a function of the state and the label. -/
def Machine.performCrash : State δ μ → Label α → Option (State δ μ)
  | ⟨d, some m⟩, .kill a k =>
      (M.step d m a).bind fun e =>
        if k ≤ e.writes.length then some ⟨M.writeAll d (e.writes.take k), none⟩ else none
  | s, l => M.perform s l

variable {M}

theorem Machine.step_of_perform {s s' : State δ μ} {l : Label α}
    (h : M.perform s l = some s') : M.Step s l s' := by
  unfold Machine.perform at h
  split at h
  · obtain ⟨e, he, rfl⟩ := Option.map_eq_some_iff.mp h
    exact .act he
  · have hinj := Option.some.inj h
    subst hinj
    exact .terminate
  · have hinj := Option.some.inj h
    subst hinj
    exact .launch
  · cases h

theorem Machine.perform_of_step {s s' : State δ μ} {l : Label α} (h : M.Step s l s') :
    M.perform s l = some s' := by
  cases h with
  | act h => rw [Machine.perform, h, Option.map_some]
  | terminate => rfl
  | launch => rfl

theorem Machine.crashStep_of_performCrash {s s' : State δ μ} {l : Label α}
    (h : M.performCrash s l = some s') : M.CrashStep s l s' := by
  unfold Machine.performCrash at h
  split at h
  · obtain ⟨e, he, hcut⟩ := Option.bind_eq_some_iff.mp h
    split at hcut
    · rename_i hk
      have hinj := Option.some.inj hcut
      subst hinj
      exact .kill he hk
    · cases hcut
  · exact .whole (Machine.step_of_perform h)

/-- What a step of the running process does to the installed program. -/
theorem Machine.Step.act_inv {s s' : State δ μ} {a : α} (h : M.Step s (.act a) s') :
    ∃ m e, s.memory = some m ∧ M.step s.stored m a = some e ∧
      s'.stored = M.writeAll s.stored e.writes ∧
      ∀ m', s'.memory = some m' ↔ e.next = .ok m' := by
  cases h with
  | @act d m a e h =>
      refine ⟨m, e, rfl, h, rfl, fun m' => ?_⟩
      rcases e.next with trap | m'' <;> simp [Except.toOption]

/-- The same for a process whose memory is known. -/
theorem Machine.Step.act_of_memory {s s' : State δ μ} {a : α} (h : M.Step s (.act a) s')
    {m : μ} (hm : s.memory = some m) :
    ∃ e, M.step s.stored m a = some e ∧ s'.stored = M.writeAll s.stored e.writes ∧
      ∀ m', s'.memory = some m' ↔ e.next = .ok m' := by
  obtain ⟨m₀, e, hm₀, he, hstored, hnext⟩ := h.act_inv
  obtain rfl : m = m₀ := Option.some.inj (hm.symm.trans hm₀)
  exact ⟨e, he, hstored, hnext⟩

/-- Only a step of the process changes what is stored. -/
theorem Machine.Step.stored_eq {s s' : State δ μ} {l : Label α} (h : M.Step s l s')
    (hl : ∀ a, l ≠ .act a) : s'.stored = s.stored := by
  cases h with
  | act _ => exact absurd rfl (hl _)
  | terminate => rfl
  | launch => rfl

/-! ## Invariants -/

/-- `I` holds of what is stored, and `J` of the running process, if any. -/
def Holds (I : δ → Prop) (J : δ → μ → Prop) (s : State δ μ) : Prop :=
  I s.stored ∧ ∀ m, s.memory = some m → J s.stored m

section Rules

variable {I : δ → Prop} {J : δ → μ → Prop}

/-- One step keeps an invariant that launching establishes and every action
keeps. -/
theorem Machine.Step.holds (hboot : ∀ d, I d → J d (M.boot d))
    {s s' : State δ μ} {l : Label α} (h : M.Step s l s')
    (hact : ∀ m a e, s.memory = some m → l = .act a → J s.stored m →
      M.step s.stored m a = some e → I (M.writeAll s.stored e.writes) ∧
        ∀ m', e.next = .ok m' → J (M.writeAll s.stored e.writes) m')
    (hs : Holds I J s) : Holds I J s' := by
  obtain ⟨hI, hJ⟩ := hs
  cases l with
  | act a =>
      obtain ⟨m, e, hm, he, hstored, hnext⟩ := h.act_inv
      obtain ⟨hI', hJ'⟩ := hact m a e hm rfl (hJ m hm) he
      rw [← hstored] at hI' hJ'
      exact ⟨hI', fun m' hm' => hJ' m' ((hnext m').mp hm')⟩
  | terminate =>
      cases h
      exact ⟨hI, fun _ hm => by cases hm⟩
  | launch =>
      cases h
      refine ⟨hI, fun m hm => ?_⟩
      have hinj := Option.some.inj hm
      subst hinj
      exact hboot _ hI
  | kill a k => cases h

variable (J) in
/-- The invariant rule for a law of the running process, in runs whose
transitions all meet a condition. -/
theorem Machine.run_memory_holds_under (C : Edge (State δ μ) (Label α) → Prop)
    {start : State δ μ} (hstart : start.memory = none) (hboot : ∀ d, J d (M.boot d))
    (hact : ∀ s a s' m e m', C ⟨s, .act a, s'⟩ → s.memory = some m → J s.stored m →
      M.step s.stored m a = some e → e.next = .ok m' →
      J (M.writeAll s.stored e.writes) m')
    {history : List (Edge (State δ μ) (Label α))} {s : State δ μ}
    (run : Run M.Step start history s) (hC : ∀ e ∈ history, C e) {m : μ}
    (hm : s.memory = some m) : J s.stored m := by
  have hholds : Holds (fun _ => True) J s := by
    refine run.invariant_under C (Holds (fun _ => True) J) ?_ ?_ hC
    · refine ⟨trivial, fun m hm => ?_⟩
      rw [hstart] at hm
      cases hm
    · intro s l s' hs h hlast
      refine h.holds (fun d _ => hboot d) ?_ hs
      intro m a e hm hl hJ he
      subst hl
      exact ⟨trivial, fun m' hnext => hact s a s' m e m' hlast hm hJ he hnext⟩
  exact hholds.2 m hm

variable (J) in
/-- The invariant rule for a law of the running process. -/
theorem Machine.run_memory_holds {start : State δ μ} (hstart : start.memory = none)
    (hboot : ∀ d, J d (M.boot d))
    (hact : ∀ d m a e m', J d m → M.step d m a = some e → e.next = .ok m' →
      J (M.writeAll d e.writes) m')
    {history : List (Edge (State δ μ) (Label α))} {s : State δ μ}
    (run : Run M.Step start history s) {m : μ} (hm : s.memory = some m) : J s.stored m :=
  Machine.run_memory_holds_under J (fun _ => True) hstart hboot
    (fun s a _ m e m' _ _ hJ he hnext => hact s.stored m a e m' hJ he hnext) run
    (fun _ _ => trivial) hm

/-- One step, whole or cut short, keeps such an invariant when its stored part
holds at the cut. -/
theorem Machine.CrashStep.holds (hboot : ∀ d, I d → J d (M.boot d))
    {s s' : State δ μ} {l : Label α} (h : M.CrashStep s l s')
    (hact : ∀ m a e, s.memory = some m → l = .act a → J s.stored m →
      M.step s.stored m a = some e → I (M.writeAll s.stored e.writes) ∧
        ∀ m', e.next = .ok m' → J (M.writeAll s.stored e.writes) m')
    (hkill : ∀ m a e k, s.memory = some m → l = .kill a k → J s.stored m →
      M.step s.stored m a = some e → k ≤ e.writes.length →
      I (M.writeAll s.stored (e.writes.take k)))
    (hs : Holds I J s) : Holds I J s' := by
  cases h with
  | whole h => exact h.holds hboot hact hs
  | @kill d m a e k h hk =>
      exact ⟨hkill m a e k rfl rfl (hs.2 m rfl) h hk, fun _ hm => by cases hm⟩

/-- The invariant rule for runs that may be cut between two durable writes. -/
theorem Machine.crash_run_holds {start : State δ μ} (hstart : Holds I J start)
    (hboot : ∀ d, I d → J d (M.boot d))
    (hact : ∀ d m a e, I d → J d m → M.step d m a = some e →
      (∀ k, I (M.writeAll d (e.writes.take k))) ∧
        ∀ m', e.next = .ok m' → J (M.writeAll d e.writes) m')
    {history : List (Edge (State δ μ) (Label α))} {s : State δ μ}
    (run : Run M.CrashStep start history s) : Holds I J s := by
  refine run.invariant (Holds I J) hstart fun s l s' hs h => ?_
  refine h.holds hboot (fun m a e _ _ hJ he => ?_) (fun m a e k _ _ hJ he _ => ?_) hs
  · obtain ⟨hcut, hnext⟩ := hact s.stored m a e hs.1 hJ he
    exact ⟨by simpa using hcut e.writes.length, hnext⟩
  · exact (hact s.stored m a e hs.1 hJ he).1 k

end Rules

/-! ## One process of a run -/

/-- The transitions of the process that runs at the end of a history: those after
the last launch. -/
def currentProcess (history : List (Edge (State δ μ) (Label α))) :
    List (Edge (State δ μ) (Label α)) :=
  history.foldl (fun process e =>
    match e.label with
    | .launch => []
    | _ => process ++ [e]) []

section Processes

@[simp] theorem currentProcess_nil :
    currentProcess ([] : List (Edge (State δ μ) (Label α))) = [] := rfl

theorem currentProcess_launch (history : List (Edge (State δ μ) (Label α)))
    (s s' : State δ μ) : currentProcess (history ++ [⟨s, .launch, s'⟩]) = [] := by
  simp [currentProcess]

theorem currentProcess_act (history : List (Edge (State δ μ) (Label α)))
    (s s' : State δ μ) (a : α) : currentProcess (history ++ [⟨s, .act a, s'⟩]) =
      currentProcess history ++ [⟨s, .act a, s'⟩] := by
  simp [currentProcess]

theorem mem_of_mem_currentProcess {history : List (Edge (State δ μ) (Label α))}
    {e : Edge (State δ μ) (Label α)} (he : e ∈ currentProcess history) : e ∈ history := by
  induction history using List.reverseRecOn with
  | nil => cases he
  | append_singleton history last ih =>
      rw [currentProcess, List.foldl_append] at he
      rcases last with ⟨s, label, s'⟩
      cases label with
      | launch => cases he
      | _ =>
          rcases List.mem_append.mp he with hold | hlast
          · exact List.mem_append_left _ (ih hold)
          · exact List.mem_append_right _ hlast

variable (J : List (Edge (State δ μ) (Label α)) → δ → μ → Prop) in
/-- The invariant rule for a law that relates the running process to its own
history, in runs whose steps all meet a condition on that history. -/
theorem Machine.run_process_rule_under
    (C : List (Edge (State δ μ) (Label α)) → Edge (State δ μ) (Label α) → Prop)
    {start : State δ μ} (hstart : start.memory = none) (hboot : ∀ d, J [] d (M.boot d))
    (hact : ∀ process s a s' m e m', C process ⟨s, .act a, s'⟩ → s.memory = some m →
      s'.memory = some m' → J process s.stored m → M.step s.stored m a = some e →
      e.next = .ok m' →
      J (process ++ [⟨s, .act a, s'⟩]) (M.writeAll s.stored e.writes) m')
    {history : List (Edge (State δ μ) (Label α))} {s : State δ μ}
    (run : Run M.Step start history s)
    (hC : ∀ earlier e later, history = earlier ++ e :: later → C (currentProcess earlier) e)
    {m : μ} (hm : s.memory = some m) : J (currentProcess history) s.stored m := by
  revert hC m
  refine run.history_rule (fun history s =>
    (∀ earlier e later, history = earlier ++ e :: later → C (currentProcess earlier) e) →
      ∀ {m : μ}, s.memory = some m → J (currentProcess history) s.stored m) ?_ ?_
  · intro _ m hm
    rw [hstart] at hm
    cases hm
  · intro history s l s' _ ih h hC m' hm'
    have hlast := hC history ⟨s, l, s'⟩ [] rfl
    have hearlier : ∀ earlier e later, history = earlier ++ e :: later →
        C (currentProcess earlier) e := by
      rintro earlier e later rfl
      exact hC earlier e (later ++ [⟨s, l, s'⟩]) (by simp)
    cases l with
    | act a =>
        obtain ⟨m, e, hm, he, hstored, hnext⟩ := h.act_inv
        rw [currentProcess_act, hstored]
        exact hact _ s a s' m e m' hlast hm hm' (ih hearlier hm) he ((hnext m').mp hm')
    | terminate =>
        cases h
        cases hm'
    | launch =>
        rw [currentProcess_launch]
        cases h
        have hinj := Option.some.inj hm'
        subst hinj
        exact hboot _
    | kill a k => cases h

variable (J : List (Edge (State δ μ) (Label α)) → δ → μ → Prop) in
/-- The invariant rule for a law that relates the running process to its own
history. -/
theorem Machine.run_process_rule {start : State δ μ} (hstart : start.memory = none)
    (hboot : ∀ d, J [] d (M.boot d))
    (hact : ∀ process s a s' m e m', s.memory = some m → s'.memory = some m' →
      J process s.stored m → M.step s.stored m a = some e → e.next = .ok m' →
      J (process ++ [⟨s, .act a, s'⟩]) (M.writeAll s.stored e.writes) m')
    {history : List (Edge (State δ μ) (Label α))} {s : State δ μ}
    (run : Run M.Step start history s) {m : μ} (hm : s.memory = some m) :
    J (currentProcess history) s.stored m :=
  Machine.run_process_rule_under J (fun _ _ => True) hstart hboot
    (fun process s a s' m e m' _ => hact process s a s' m e m') run
    (fun _ _ _ _ => trivial) hm

variable (J : List (Edge (State δ μ) (Label α)) → δ → μ → Prop) in
/-- The same rule for runs whose processes may be killed inside a step. -/
theorem Machine.crash_process_rule {start : State δ μ} (hstart : start.memory = none)
    (hboot : ∀ d, J [] d (M.boot d))
    (hact : ∀ process s a s' m e m', s.memory = some m → J process s.stored m →
      M.step s.stored m a = some e → e.next = .ok m' →
      J (process ++ [⟨s, .act a, s'⟩]) (M.writeAll s.stored e.writes) m')
    {history : List (Edge (State δ μ) (Label α))} {s : State δ μ}
    (run : Run M.CrashStep start history s) {m : μ} (hm : s.memory = some m) :
    J (currentProcess history) s.stored m := by
  revert m
  refine run.history_rule (fun history s => ∀ {m : μ}, s.memory = some m →
    J (currentProcess history) s.stored m) ?_ ?_
  · intro m hm
    rw [hstart] at hm
    cases hm
  · intro history s l s' _ ih h m' hm'
    cases h with
    | kill _ _ => cases hm'
    | whole h =>
        cases l with
        | kill a k => cases h
        | terminate =>
            cases h
            cases hm'
        | launch =>
            rw [currentProcess_launch]
            cases h
            obtain rfl := Option.some.inj hm'
            exact hboot _
        | act a =>
            obtain ⟨m, e, hm, he, hstored, hnext⟩ := h.act_inv
            rw [currentProcess_act, hstored]
            exact hact _ s a s' m e m' hm (ih hm) he ((hnext m').mp hm')

/-- The rule for where the values of a process come from: when every value held
after a step was held before it or came with it, every value held by the running
process came with one of its own transitions. -/
theorem Machine.process_origin {ν : Type} (Held : μ → ν → Prop)
    (Brings : Edge (State δ μ) (Label α) → ν → Prop) {start : State δ μ}
    (hstart : start.memory = none) (hboot : ∀ d v, ¬ Held (M.boot d) v)
    (hact : ∀ s a s' m e m', s.memory = some m → M.step s.stored m a = some e →
      e.next = .ok m' → ∀ v, Held m' v → Held m v ∨ Brings ⟨s, .act a, s'⟩ v)
    {history : List (Edge (State δ μ) (Label α))} {s : State δ μ}
    (run : Run M.CrashStep start history s) {m : μ} (hm : s.memory = some m) {v : ν}
    (hv : Held m v) : ∃ b ∈ currentProcess history, Brings b v := by
  refine Machine.crash_process_rule
    (fun process _ m => ∀ v, Held m v → ∃ b ∈ process, Brings b v) hstart ?_ ?_ run hm v hv
  · intro d v hv
    exact absurd hv (hboot d v)
  · intro process s a s' m e m' hm ih he hnext v hv
    rcases hact s a s' m e m' hm he hnext v hv with hold | hnew
    · exact exists_mem_concat.mpr (.inl (ih v hold))
    · exact exists_mem_concat.mpr (.inr hnew)

end Processes

end Machines

end Durable
