/-
  Independence.lean --- sheets and pages do not depend on each other's timing.

  Each purchase sheet and each protocol page has a state of its own, and its
  steps read of the settings only what no sheet and no page writes, apart from
  the pass: a stored pass enables the comment field of every page and is never
  taken away.  So the steps of different sheets and pages can be interleaved in
  any way: as long as every one of them does the same and the process survives,
  the outcome is the same.
-/
import YieldMe.Flows
import YieldMe.Foundation.Interleaving

set_option autoImplicit false

namespace YieldMe

open CircleNetworking Durable Tasks Transition

/-- A sheet or a page of a process. -/
inductive ViewPart where
  | sheet (index : Nat)
  | page (index : Nat)
  deriving DecidableEq

/-- Something that happens to a sheet or to a page. -/
inductive ViewAction where
  | sheet (index : Nat) (event : PremiumPassView.Event)
  | page (index : Nat) (event : ProtocolDetailView.Event)

namespace ViewAction

def part : ViewAction → ViewPart
  | .sheet index _ => .sheet index
  | .page index _ => .page index

def action : ViewAction → Action
  | .sheet index event => .pass index event
  | .page index event => .detail index event

def label (a : ViewAction) : Label Action := .act a.action

/-- A step of a sheet or a page that the process survives. -/
def survive (s : Installed) (a : ViewAction) : Option Installed :=
  (machine.perform s a.label).filter (·.memory.isSome)

end ViewAction

/-! ## Updates -/

/-- What a step of a sheet or a page leaves in its place. -/
inductive ViewUpdate where
  | sheet (index : Nat) (before after : PremiumPassView)
  | page (index : Nat) (after : ProtocolDetailView)

def ViewUpdate.part : ViewUpdate → ViewPart
  | .sheet index _ _ => .sheet index
  | .page index _ => .page index

namespace App

def update (app : App) : ViewUpdate → App
  | .sheet index before after => app.afterPass index before after
  | .page index after => app.afterDetail index after

/-- Both processes have the same sheet or page in this place. -/
def SameAt (app app' : App) : ViewPart → Prop
  | .sheet index => app'.passViews[index]? = app.passViews[index]?
  | .page index => app'.detailViews[index]? = app.detailViews[index]?

/-- An update leaves the other sheets and pages alone. -/
theorem sameAt_update (app : App) {u : ViewUpdate} {part : ViewPart} (h : u.part ≠ part) :
    app.SameAt (app.update u) part := by
  cases u with
  | sheet index before after =>
      cases part with
      | page _ => rfl
      | sheet index' =>
          have hne : index ≠ index' := fun heq => h (congrArg ViewPart.sheet heq)
          exact List.getElem?_set_ne hne
  | page index after =>
      cases part with
      | sheet _ => rfl
      | page index' =>
          have hne : index ≠ index' := fun heq => h (congrArg ViewPart.page heq)
          exact List.getElem?_set_ne hne

/-- Updates in different places commute; what two sheets do to the root screen
when they are dismissed is the same. -/
theorem update_comm (app : App) {u u' : ViewUpdate} (h : u.part ≠ u'.part) :
    (app.update u).update u' = (app.update u').update u := by
  cases u with
  | page index after =>
      cases u' with
      | sheet _ _ _ => rfl
      | page index' after' =>
          have hne : index ≠ index' := fun heq => h (congrArg ViewPart.page heq)
          simp only [update, afterDetail, List.set_comm _ _ hne]
  | sheet index before after =>
      cases u' with
      | page _ _ => rfl
      | sheet index' before' after' =>
          have hne : index ≠ index' := fun heq => h (congrArg ViewPart.sheet heq)
          simp only [update, afterPass, List.set_comm _ _ hne]
          split <;> split <;> rfl

end App

/-! ## Steps -/

/-- The settings with the pass stored. -/
def UserDefaultsManager.passStored (defaults : UserDefaultsManager) : UserDefaultsManager :=
  defaults.write (.purchasedPass true)

/-- The writes of sheets and pages. -/
def PassWrites (writes : List SettingsWrite) : Prop :=
  writes = [] ∨ writes = [.purchasedPass true]

theorem PassWrites.stored {writes : List SettingsWrite} (h : PassWrites writes)
    (defaults : UserDefaultsManager) :
    machine.writeAll defaults writes = defaults ∨
      machine.writeAll defaults writes = defaults.passStored := by
  rcases h with rfl | rfl
  · exact .inl rfl
  · exact .inr rfl

theorem PassWrites.comm {writes writes' : List SettingsWrite} (h : PassWrites writes)
    (h' : PassWrites writes') (defaults : UserDefaultsManager) :
    machine.writeAll (machine.writeAll defaults writes) writes' =
      machine.writeAll (machine.writeAll defaults writes') writes := by
  rcases h with rfl | rfl <;> rcases h' with rfl | rfl <;> rfl

section Steps

variable {defaults : UserDefaultsManager} {app app' : App} {a : ViewAction}
  {e : AppEffect App}

theorem passWrites_of_step (h : machine.step defaults app a.action = some e) :
    PassWrites e.writes := by
  have hwrites := (acts_of_step h).writes
  generalize e.writes = writes at hwrites
  cases hwrites with
  | nothing => exact .inl rfl
  | pass _ _ _ => exact .inr rfl
  | uuid haction | session haction _ | wallet haction _ _ => cases a <;> cases haction

/-- A stored pass does not stop a step of a sheet or a page, and does not change
it. -/
theorem step_passStored (h : machine.step defaults app a.action = some e) :
    machine.step defaults.passStored app a.action = some e := by
  cases a with
  | sheet index event =>
      cases event <;> exact h
  | page index event =>
      obtain ⟨view, hview, h⟩ := Option.bind_eq_some_iff.mp h
      obtain ⟨inner, hinner, he⟩ := Option.map_eq_some_iff.mp h
      refine Option.bind_eq_some_iff.mpr ⟨view, hview, ?_⟩
      refine Option.map_eq_some_iff.mpr ⟨inner, ?_, he⟩
      cases event with
      | editNewComment text =>
          obtain ⟨hshown, rfl⟩ := Option.ite_some_none_eq_some.mp hinner
          obtain ⟨hpresented, -⟩ := Bool.and_eq_true_iff.mp hshown
          exact Option.ite_some_none_eq_some.mpr
            ⟨Bool.and_eq_true_iff.mpr ⟨hpresented, rfl⟩, rfl⟩
      | tapPostComment =>
          obtain ⟨hshown, rfl⟩ := Option.ite_some_none_eq_some.mp hinner
          simp only [Bool.and_eq_true] at hshown
          refine Option.ite_some_none_eq_some.mpr ⟨?_, rfl⟩
          simp only [Bool.and_eq_true]
          exact ⟨⟨hshown.1.1, rfl⟩, hshown.2⟩
      | onAppear | fetchedComments _ | editDepositAmount _ | tapDeposit | deposit _ _
      | onDisappear => exact hinner

/-- A step of a sheet or a page is an update in its place, and the same one in
every process that has the same sheet or page there. -/
theorem step_update (h : machine.step defaults app a.action = some e)
    (hnext : e.next = .ok app') :
    ∃ u : ViewUpdate, u.part = a.part ∧ app' = app.update u ∧
      ∀ app₂, app.SameAt app₂ a.part → ∃ e₂, machine.step defaults app₂ a.action = some e₂ ∧
        e₂.writes = e.writes ∧ e₂.next = .ok (app₂.update u) := by
  cases a with
  | sheet index event =>
      obtain ⟨view, hview, h⟩ := Option.bind_eq_some_iff.mp h
      obtain ⟨inner, hinner, rfl⟩ := Option.map_eq_some_iff.mp h
      obtain ⟨view', hview', rfl⟩ := Effect.map_next_ok hnext
      refine ⟨.sheet index view view', rfl, rfl, fun app₂ hsame => ?_⟩
      refine ⟨inner.map (app₂.afterPass index view), ?_, rfl, ?_⟩
      · refine Option.bind_eq_some_iff.mpr ⟨view, hsame.trans hview, ?_⟩
        exact Option.map_eq_some_iff.mpr ⟨inner, hinner, rfl⟩
      · rw [Effect.map, hview']
        rfl
  | page index event =>
      obtain ⟨view, hview, h⟩ := Option.bind_eq_some_iff.mp h
      obtain ⟨inner, hinner, rfl⟩ := Option.map_eq_some_iff.mp h
      obtain ⟨view', hview', rfl⟩ := Effect.map_next_ok hnext
      refine ⟨.page index view', rfl, rfl, fun app₂ hsame => ?_⟩
      refine ⟨inner.map (app₂.afterDetail index), ?_, rfl, ?_⟩
      · refine Option.bind_eq_some_iff.mpr ⟨view, hsame.trans hview, ?_⟩
        exact Option.map_eq_some_iff.mpr ⟨inner, hinner, rfl⟩
      · rw [Effect.map, hview']
        rfl

end Steps

namespace ViewAction

theorem survive_eq_some {s s' : Installed} {a : ViewAction} :
    a.survive s = some s' ↔ ∃ app e app', s.memory = some app ∧
      machine.step s.stored app a.action = some e ∧ e.next = .ok app' ∧
      s' = ⟨machine.writeAll s.stored e.writes, some app'⟩ := by
  rw [survive, Option.filter_eq_some_iff]
  constructor
  · rintro ⟨hperform, halive⟩
    obtain ⟨app, e, hmemory, he, hstored, hnext⟩ := (Machine.step_of_perform hperform).act_inv
    obtain ⟨app', hmemory'⟩ := Option.isSome_iff_exists.mp halive
    refine ⟨app, e, app', hmemory, he, (hnext app').mp hmemory', ?_⟩
    rw [← hstored, ← hmemory']
  · rintro ⟨app, e, app', hmemory, he, hnext, rfl⟩
    obtain ⟨stored, memory⟩ := s
    obtain rfl : memory = some app := hmemory
    refine ⟨?_, rfl⟩
    rw [label, Machine.perform, he, Option.map_some, hnext]
    rfl

/-- Steps of different sheets and pages are independent. -/
theorem independent : Independent (fun s a => survive s a) part := by
  intro s a b sa sb hparts ha hb
  obtain ⟨app, ea, appa, hmemory, hstepa, hnexta, rfl⟩ := survive_eq_some.mp ha
  obtain ⟨app', eb, appb, hmemory', hstepb, hnextb, rfl⟩ := survive_eq_some.mp hb
  obtain rfl := Option.some.inj (hmemory.symm.trans hmemory')
  obtain ⟨ua, hua, rfl, hagaina⟩ := step_update hstepa hnexta
  obtain ⟨ub, hub, rfl, hagainb⟩ := step_update hstepb hnextb
  have hne : ua.part ≠ ub.part := by rwa [hua, hub]
  have hwritesa := passWrites_of_step hstepa
  have hwritesb := passWrites_of_step hstepb
  obtain ⟨eb', hstepb', hwb, hnextb'⟩ :=
    hagainb (app.update ua) (hub ▸ app.sameAt_update hne)
  obtain ⟨ea', hstepa', hwa, hnexta'⟩ :=
    hagaina (app.update ub) (hua ▸ app.sameAt_update hne.symm)
  refine ⟨⟨machine.writeAll (machine.writeAll s.stored ea.writes) eb.writes,
    some ((app.update ua).update ub)⟩, ?_, ?_⟩
  · refine survive_eq_some.mpr ⟨_, eb', _, rfl, ?_, hnextb', by rw [hwb]⟩
    rcases hwritesa.stored s.stored with hsame | hpass
    · rw [hsame]
      exact hstepb'
    · rw [hpass]
      exact step_passStored hstepb'
  · refine survive_eq_some.mpr ⟨_, ea', _, rfl, ?_, hnexta', ?_⟩
    · rcases hwritesb.stored s.stored with hsame | hpass
      · rw [hsame]
        exact hstepa'
      · rw [hpass]
        exact step_passStored hstepa'
    · rw [hwa, hwritesa.comm hwritesb, app.update_comm hne]

/-- A run of sheets and pages that its process survives is a replay. -/
theorem replay_of_run {s t : Installed} {history : List Transit}
    (run : Run machine.Step s history t) :
    ∀ {actions : List ViewAction}, history.map Edge.label = actions.map label →
      t.memory.isSome → replay survive s actions = some t := by
  induction run with
  | nil =>
      intro actions hlabels _
      obtain rfl := List.map_eq_nil_iff.mp hlabels.symm
      rfl
  | @snoc history t t' l run h ih =>
      intro actions hlabels halive
      rw [List.map_append] at hlabels
      obtain ⟨before, last, rfl, hbefore, hlast⟩ := List.map_eq_append_iff.mp hlabels.symm
      obtain ⟨a, rfl, hlabel⟩ := List.map_eq_singleton_iff.mp hlast
      obtain rfl : a.label = l := hlabel
      obtain ⟨app, e, hmemory, -⟩ := h.act_inv
      rw [replay_concat, ih hbefore.symm (by rw [hmemory]; rfl), Option.bind_some, survive,
        Machine.perform_of_step h]
      simpa using halive

end ViewAction

/-- Two runs of the sheets and pages of a process, in which each sheet and each
page goes through the same events in the same order, and which the process
survives, end in the same state. -/
theorem views_commute {s t t' : Installed} {history history' : List Transit}
    (run : Run machine.Step s history t) (run' : Run machine.Step s history' t')
    {actions actions' : List ViewAction}
    (hlabels : history.map Edge.label = actions.map ViewAction.label)
    (hlabels' : history'.map Edge.label = actions'.map ViewAction.label)
    (hparts : ∀ part, actions.filter (·.part = part) = actions'.filter (·.part = part))
    (halive : t.memory.isSome) (halive' : t'.memory.isSome) : t = t' :=
  ViewAction.independent.replay_unique actions hparts
    (ViewAction.replay_of_run run hlabels halive)
    (ViewAction.replay_of_run run' hlabels' halive')

/-- A process with two pages of one protocol. -/
def twoPagesSchedule : List (Label Action) :=
  let item : ProtocolItem :=
    ⟨1, "Pool", 5, "url", "description", "tvl", "date", "network", "whitepaper"⟩
  signedInSchedule ++
  [.act (.content .onAppear), .act (.content (.fetchedProtocols (some [some item]))),
    .act (.openDetail item), .act (.openDetail item)]

/-- The user writes an amount on a page and taps Deposit. -/
def depositOn (page : Nat) (amount : String) : List ViewAction :=
  [.page page (.editDepositAmount amount), .page page .tapDeposit,
    .page page (.deposit 0 (.start "idempotency key"))]

/-- Two deposits, one after the other in either order. -/
theorem views_commute_of_deposits :
    ∃ (s t t' : Installed) (history history' : List Transit),
      Run machine.Step s history t ∧ Run machine.Step s history' t' ∧
      history.map Edge.label = (depositOn 0 "1" ++ depositOn 1 "2").map ViewAction.label ∧
      history'.map Edge.label = (depositOn 1 "2" ++ depositOn 0 "1").map ViewAction.label ∧
      t.memory.isSome ∧ t = t' := by
  have hend : ((replay machine.perform freshInstall twoPagesSchedule).bind fun s =>
      (replay machine.perform s ((depositOn 0 "1" ++ depositOn 1 "2").map
        ViewAction.label)).bind fun t =>
          (replay machine.perform s ((depositOn 1 "2" ++ depositOn 0 "1").map
            ViewAction.label)).map fun t' => (t.memory.isSome, t'.memory.isSome)) =
      some (true, true) := by
    decide
  obtain ⟨s, -, hend⟩ := Option.bind_eq_some_iff.mp hend
  obtain ⟨t, ht, hend⟩ := Option.bind_eq_some_iff.mp hend
  obtain ⟨t', ht', halive⟩ := Option.map_eq_some_iff.mp hend
  obtain ⟨halive, halive'⟩ := Prod.mk.inj halive
  obtain ⟨history, run, hlabels⟩ :=
    exists_run_of_replay (fun _ _ _ => Machine.step_of_perform) _ ht
  obtain ⟨history', run', hlabels'⟩ :=
    exists_run_of_replay (fun _ _ _ => Machine.step_of_perform) _ ht'
  refine ⟨s, t, t', history, history', run, run', hlabels, hlabels', halive,
    views_commute run run' hlabels hlabels' ?_ halive halive'⟩
  rintro (index | index)
  · rfl
  · rcases index with _ | _ | index
    · rfl
    · rfl
    · simp [depositOn, ViewAction.part]

end YieldMe
