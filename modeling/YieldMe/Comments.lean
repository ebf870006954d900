/-
  Comments.lean --- the comments a user posts and the fetches that replace them.

  The post button appends to the list of the page and tells no server.  A fetch
  that completes assigns the whole list.  Every appearance of the page starts a
  fetch, so one may be pending when the user posts, or start later; a posted
  comment stays exactly as long as every fetch that completes brings it along.
-/
import YieldMe.Flows

set_option autoImplicit false

namespace YieldMe

open Durable Tasks Transition

/-- The state of a page, if a process runs and has it. -/
def Installed.page? (s : Installed) (index : Nat) : Option ProtocolDetailView :=
  s.memory.bind (·.detailViews[index]?)

/-- The post button of the page appends this comment. -/
def Posts (index : Nat) (comment : Comment) (e : Transit) : Prop :=
  e.label = .act (.detail index .tapPostComment) ∧
    ∃ view view', Installed.page? e.before index = some view ∧
      Installed.page? e.after index = some view' ∧
      view'.comments = view.comments ++ [comment]

/-- Every comment posted on a page that is still presented is in its list. -/
def PostsShown (process : List Transit) (app : App) : Prop :=
  ∀ (index : Nat) (view : ProtocolDetailView) (comment : Comment),
    app.detailViews[index]? = some view → view.presented = true →
    (∃ b ∈ process, Posts index comment b) → comment ∈ view.comments

/-- No state of a run has lost a posted comment. -/
def PostsKept (history : List Transit) : Prop :=
  ∀ earlier e later app, history = earlier ++ e :: later → e.after.memory = some app →
    PostsShown (currentProcess (earlier ++ [e])) app

/-- A fetch that completes on a page still presented brings every comment posted
on it so far. -/
def BringsPosts (process : List Transit) (e : Transit) : Prop :=
  ∀ index documents view,
    e.label = .act (.detail index (.fetchedComments (some documents))) →
    Installed.page? e.before index = some view → view.presented = true →
    ∀ comment, (∃ b ∈ process, Posts index comment b) → some comment ∈ documents

/-! ## One step of a page -/

namespace ProtocolDetailView

variable {defaults : UserDefaultsManager} {view view' : ProtocolDetailView} {event : Event}
  {e : AppEffect ProtocolDetailView}

/-- A page that is gone stays gone. -/
theorem Step.presented_before (h : view.Step defaults event e) (hnext : e.next = .ok view')
    (hshown : view'.presented = true) : view.presented = true := by
  cases h with
  | appeared hshown | amountEdited hshown _ | depositTapped hshown _ _
  | commentEdited hshown _ | commentPosted hshown _ _ | disappeared hshown => exact hshown
  | fetchFailed _ => cases hnext
  | fetched _ =>
      have hinj := Except.ok.inj hnext
      subst hinj
      exact hshown
  | @deposit task t event _ _ _ =>
      obtain ⟨t', -, rfl⟩ := Effect.map_next_ok hnext
      cases event <;> exact hshown

/-- A fetch replaces the comments, a post appends one under the new id, and no
other step changes them. -/
theorem Step.comments_spec (h : view.Step defaults event e) (hnext : e.next = .ok view') :
    (∃ documents, event = .fetchedComments (some documents) ∧
      view'.comments = documents.filterMap id) ∨
    (∃ newComment, event = .tapPostComment ∧
      newCommentId view.comments = .ok newComment.id ∧
      view'.comments = view.comments ++ [newComment]) ∨
    view'.comments = view.comments := by
  cases h with
  | fetchFailed _ => cases hnext
  | fetched _ =>
      have hinj := Except.ok.inj hnext
      subst hinj
      exact .inl ⟨_, rfl, rfl⟩
  | commentPosted _ _ _ =>
      obtain ⟨newComment, hid, rfl⟩ := postComment_spec hnext
      exact .inr (.inl ⟨newComment, rfl, hid, rfl⟩)
  | @deposit task t event _ _ _ =>
      obtain ⟨t', -, rfl⟩ := Effect.map_next_ok hnext
      cases event <;> exact .inr (.inr rfl)
  | _ =>
      have hinj := Except.ok.inj hnext
      subst hinj
      exact .inr (.inr rfl)

/-- Only a fetch takes a comment away. -/
theorem Step.comments_cases (h : view.Step defaults event e) (hnext : e.next = .ok view') :
    (∃ documents, event = .fetchedComments (some documents) ∧
      view'.comments = documents.filterMap id) ∨ view.comments ⊆ view'.comments := by
  rcases h.comments_spec hnext with hfetched | ⟨newComment, -, -, hposted⟩ | hsame
  · exact .inl hfetched
  · exact .inr (hposted ▸ List.subset_append_left _ _)
  · exact .inr (hsame ▸ List.Subset.refl _)

end ProtocolDetailView

/-! ## One process -/

/-- A page that took a step is there. -/
def PagesOpened (process : List Transit) (_defaults : UserDefaultsManager) (app : App) :
    Prop :=
  ∀ b ∈ process, ∀ index event, b.label = .act (.detail index event) →
    index < app.detailViews.length

theorem App.Step.detailViews_length {defaults : UserDefaultsManager} {app app' : App}
    {action : Action} {e : AppEffect App} (h : app.Step defaults action e)
    (hnext : e.next = .ok app') : app.detailViews.length ≤ app'.detailViews.length := by
  cases h with
  | content _ =>
      obtain ⟨view, -, rfl⟩ := Effect.map_next_ok hnext
      rw [detailViews_afterContent]
  | pass _ _ =>
      obtain ⟨view, -, rfl⟩ := Effect.map_next_ok hnext
      exact Nat.le_refl _
  | detail _ _ =>
      obtain ⟨view, -, rfl⟩ := Effect.map_next_ok hnext
      exact Nat.le_of_eq List.length_set.symm
  | openDetail _ =>
      have hinj := Except.ok.inj hnext
      subst hinj
      simp

theorem PagesOpened.step {process : List Transit} {s s' : Installed} {app app' : App}
    {action : Action} {effect : AppEffect App} (h : app.Step s.stored action effect)
    (hnext : effect.next = .ok app') (hopened : PagesOpened process s.stored app) :
    PagesOpened (process ++ [⟨s, .act action, s'⟩])
      (machine.writeAll s.stored effect.writes) app' := by
  intro b hb index event hlabel
  have hlength := h.detailViews_length hnext
  rcases List.mem_append.mp hb with hold | hlast
  · exact Nat.lt_of_lt_of_le (hopened b hold index event hlabel) hlength
  · have hinj := List.mem_singleton.mp hlast
    subst hinj
    cases hlabel
    cases h with
    | detail hview _ =>
        exact Nat.lt_of_lt_of_le (List.getElem?_eq_some_iff.mp hview).1 hlength

theorem PostsShown.step {process : List Transit} {s s' : Installed} {app app' : App}
    {action : Action} {effect : AppEffect App} (hmemory : s.memory = some app)
    (hmemory' : s'.memory = some app') (h : app.Step s.stored action effect)
    (hnext : effect.next = .ok app') (hopened : PagesOpened process s.stored app)
    (hbrings : BringsPosts process ⟨s, .act action, s'⟩) (hshown : PostsShown process app) :
    PostsShown (process ++ [⟨s, .act action, s'⟩]) app' := by
  intro index view' comment hview' hpresented hposted
  rcases exists_mem_concat.mp hposted with hearlier | hposts
  · rcases h.detailView_cases hnext hview' with hsame | ⟨hnew, -⟩ |
      ⟨event, view, inner, rfl, hview, hstep, hinner⟩
    · exact hshown index view' comment hsame hpresented hearlier
    · -- nothing was posted on a page that was not there
      obtain ⟨b, hb, hposts⟩ := hearlier
      have hlt := hopened b hb index _ hposts.1
      omega
    · have hbefore := hstep.presented_before hinner hpresented
      rcases hstep.comments_cases hinner with ⟨documents, rfl, hcomments⟩ | hkept
      · rw [hcomments]
        refine List.mem_filterMap.mpr ⟨some comment, ?_, rfl⟩
        refine hbrings index documents view rfl ?_ hbefore comment hearlier
        rw [Installed.page?, hmemory, Option.bind_some, hview]
      · exact hkept (hshown index view comment hview hbefore hearlier)
  · obtain ⟨-, _, view, -, hafter, hcomments⟩ := hposts
    rw [Installed.page?, hmemory', Option.bind_some, hview'] at hafter
    rw [Option.some.inj hafter, hcomments]
    exact List.mem_append_right _ (List.mem_singleton_self _)

/-- Where every fetch brings the posts along, no post is lost. -/
theorem postsShown_of_brings {history : List Transit} {s : Installed}
    (run : Run machine.Step freshInstall history s)
    (hbrings : ∀ earlier e later, history = earlier ++ e :: later →
      BringsPosts (currentProcess earlier) e) {app : App} (hmemory : s.memory = some app) :
    PostsShown (currentProcess history) app := by
  have hshown : PagesOpened (currentProcess history) s.stored app ∧
      PostsShown (currentProcess history) app := by
    refine Machine.run_process_rule_under
      (fun process defaults app => PagesOpened process defaults app ∧ PostsShown process app)
      BringsPosts rfl ?_ ?_ run hbrings hmemory
    · intro defaults
      refine ⟨fun b hb => (by cases hb), fun index view comment hview => ?_⟩
      simp [machine, App.boot] at hview
    · intro process s action s' app effect app' hbrings hmemory hmemory' hshown heffect hnext
      have hstep := App.step_of_some heffect
      exact ⟨hshown.1.step hstep hnext,
        hshown.2.step hmemory hmemory' hstep hnext hshown.1 hbrings⟩
  exact hshown.2

/-- No posted comment is lost exactly in the runs in which every fetch that
completes on a presented page brings the comments posted on it so far. -/
theorem postsKept_iff {history : List Transit} {s : Installed}
    (run : Run machine.Step freshInstall history s) :
    PostsKept history ↔ ∀ earlier e later, history = earlier ++ e :: later →
      BringsPosts (currentProcess earlier) e := by
  constructor
  · rintro hkept earlier ⟨before, label, after⟩ later rfl index documents view hlabel hpage
      hpresented comment hposted
    obtain ⟨app, hmemory, hview⟩ := Option.bind_eq_some_iff.mp hpage
    have h := run.cut.2
    subst hlabel
    obtain ⟨effect, heffect, -, hnext⟩ := h.act_of_memory hmemory
    cases App.step_of_some heffect with
    | detail hview' hstep =>
        obtain rfl := Option.some.inj (hview.symm.trans hview')
        cases hstep with
        | fetched _ =>
            have hshown := hkept earlier _ later _ rfl ((hnext _).mpr rfl)
            rw [currentProcess_act] at hshown
            have hmem := hshown index _ comment (getElem?_set_of_some hview _) hpresented
              (exists_mem_concat.mpr (.inl hposted))
            obtain ⟨document, hdocument, hcomment⟩ := List.mem_filterMap.mp hmem
            rwa [← show document = some comment from hcomment]
  · rintro hbrings earlier e later app rfl hmemory
    obtain ⟨hrun, h⟩ := run.cut
    refine postsShown_of_brings (hrun.snoc h) ?_ hmemory
    intro first e' rest hsplit
    refine hbrings first e' (rest ++ later) ?_
    rw [List.append_cons, hsplit]
    simp

/-- A pass holder opens the page of a protocol and writes a comment. -/
def writeCommentSchedule : List (Label Action) :=
  let item : ProtocolItem :=
    ⟨1, "Pool", 5, "url", "description", "tvl", "date", "network", "whitepaper"⟩
  signedInSchedule ++ tapPurchaseSchedule ++
  (Flow.mint 0 0).schedule (Transaction.untilCompletion ++ [.completion .success]) ++
  [.act (.content .onAppear), .act (.content (.fetchedProtocols (some [some item]))),
    .act (.openDetail item), .act (.detail 0 .onAppear),
    .act (.detail 0 (.editNewComment "text"))]

theorem postsKept_of_post :
    ∃ history s, Run machine.Step freshInstall history s ∧
      (Installed.page? s 0).map (·.comments) = some [⟨1, "address", "text"⟩] ∧
      PostsKept history := by
  have hend : (replay machine.perform freshInstall
      (writeCommentSchedule ++ [.act (.detail 0 .tapPostComment)])).map (fun s =>
        (Installed.page? s 0).map (·.comments)) =
          some (some [⟨1, "address", "text"⟩]) := by
    decide
  obtain ⟨history, s, run, hlabels, hcomments⟩ := exists_run_of_schedule _ hend
  refine ⟨history, s, run, hcomments, (postsKept_iff run).mpr ?_⟩
  rintro earlier e later rfl index documents _ hlabel
  have hmem := label_mem hlabels (List.mem_append_right earlier List.mem_cons_self)
  rw [hlabel] at hmem
  simp [writeCommentSchedule, signedInSchedule, tapPurchaseSchedule, signInSchedule,
    SignIn.untilQuery, SignIn.walletResponse, Flow.schedule, Flow.action,
    Transaction.untilCompletion] at hmem

theorem not_always_postsKept :
    ¬ ∀ (history : List Transit) (s : Installed),
      Run machine.Step freshInstall history s → PostsKept history := by
  intro hall
  -- the fetch of the first appearance is pending when the comment is posted
  have hend : ((replay machine.perform freshInstall writeCommentSchedule).bind fun s =>
      (machine.perform s (.act (.detail 0 .tapPostComment))).bind fun s' =>
        (machine.perform s' (.act (.detail 0 (.fetchedComments (some []))))).map fun s'' =>
          ((Installed.page? s 0).map (·.comments), (Installed.page? s' 0).map (·.comments),
            (Installed.page? s'' 0).map fun view => (view.presented, view.comments))) =
      some (some [], some [⟨1, "address", "text"⟩], some (true, [])) := by
    decide
  obtain ⟨s, hs, hend⟩ := Option.bind_eq_some_iff.mp hend
  obtain ⟨s', hpost, hend⟩ := Option.bind_eq_some_iff.mp hend
  obtain ⟨s'', hfetch, hend⟩ := Option.map_eq_some_iff.mp hend
  obtain ⟨hbefore, hend⟩ := Prod.mk.inj hend
  obtain ⟨hposted, hafter⟩ := Prod.mk.inj hend
  obtain ⟨view, hview, hcomments⟩ := Option.map_eq_some_iff.mp hbefore
  obtain ⟨view', hview', hcomments'⟩ := Option.map_eq_some_iff.mp hposted
  obtain ⟨view'', hview'', hend⟩ := Option.map_eq_some_iff.mp hafter
  obtain ⟨hpresented, hlost⟩ := Prod.mk.inj hend
  obtain ⟨app, hmemory, hpage⟩ := Option.bind_eq_some_iff.mp hview''
  obtain ⟨history, run, -⟩ :=
    exists_run_of_replay (fun _ _ _ => Machine.step_of_perform) _ hs
  have run := (run.snoc (Machine.step_of_perform hpost)).snoc (Machine.step_of_perform hfetch)
  have hshown := hall _ _ run _ _ [] app rfl hmemory
  rw [currentProcess_act, currentProcess_act] at hshown
  have hmem := hshown 0 view'' ⟨1, "address", "text"⟩ hpage hpresented
    ⟨⟨s, .act (.detail 0 .tapPostComment), s'⟩, by simp, rfl, view, view', hview, hview',
      by rw [hcomments, hcomments']; rfl⟩
  rw [hlost] at hmem
  cases hmem

end YieldMe
