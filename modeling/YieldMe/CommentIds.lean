/-
  CommentIds.lean --- the ids of the comments on a page.

  The list of comments identifies its rows by id.  A fetch brings its own ids; a
  post takes the greatest id present plus one, where the greatest of none is
  zero and the greatest of some may be negative.  Either way the new id is above
  every id present, so no post repeats an id, and only a fetch could.
-/
import YieldMe.Comments

set_option autoImplicit false

namespace YieldMe

open Durable Transition

/-- The comments of a page have different ids. -/
def ProtocolDetailView.DistinctIds (view : ProtocolDetailView) : Prop :=
  (view.comments.map (·.id)).Nodup

/-- A fetch that completes on the page delivers comments with different ids. -/
def DeliversDistinct (index : Nat) (e : Transit) : Prop :=
  ∀ documents, e.label = .act (.detail index (.fetchedComments (some documents))) →
    ((documents.filterMap id).map (·.id)).Nodup

/-! ## The id of a new comment -/

theorem int64_max_eq (a b : Int64) : max a b = if a ≤ b then b else a := rfl

instance lawfulOrderMaxInt64 : Std.LawfulOrderMax Int64 := by
  refine Std.LawfulOrderMax.of_max_le_iff (fun a b c => ?_) (fun a b => ?_)
  · rw [int64_max_eq]
    simp only [Int64.le_iff_toInt_le]
    split <;> omega
  · rw [int64_max_eq]
    split
    · exact .inr rfl
    · exact .inl rfl

/-- The addition does not wrap where it does not trap. -/
theorem int64_lt_add_one {a : Int64} (h : a ≠ Int64.maxValue) : a < a + 1 := by
  have hmax : a.toInt ≠ Int64.maxValue.toInt := fun heq => h (Int64.toInt_inj.mp heq)
  have hlow := a.le_toInt
  have hhigh := a.toInt_lt
  rw [Int64.toInt_maxValue] at hmax
  have hsum : (a + 1).toInt = a.toInt + 1 := by
    rw [Int64.toInt_add, Int64.toInt_one]
    exact Int.bmod_eq_of_le (by omega) (by omega)
  rw [Int64.lt_iff_toInt_lt, hsum]
  exact Int.lt_succ _

namespace ProtocolDetailView

/-- The id of a new comment is above every id present. -/
theorem newCommentId_spec {comments : List Comment} {newId : Int64}
    (h : newCommentId comments = .ok newId) : ∀ comment ∈ comments, comment.id < newId := by
  intro comment hmem
  have hid : comment.id ∈ comments.map (·.id) := List.mem_map_of_mem hmem
  unfold newCommentId at h
  cases hmaxId : (comments.map (·.id)).max? with
  | none =>
      rw [List.max?_eq_none_iff.mp hmaxId] at hid
      cases hid
  | some maxId =>
      rw [hmaxId, Option.getD_some] at h
      have hle : comment.id ≤ maxId := (List.max?_eq_some_iff.mp hmaxId).2 _ hid
      by_cases hmax : maxId = Int64.maxValue
      · rw [if_pos hmax] at h
        cases h
      · rw [if_neg hmax] at h
        rw [← Except.ok.inj h]
        exact Std.lt_of_le_of_lt hle (int64_lt_add_one hmax)

variable {defaults : UserDefaultsManager} {view view' : ProtocolDetailView} {event : Event}
  {e : AppEffect ProtocolDetailView}

/-- One step keeps the ids different, when a fetch that it completes brings
different ones. -/
theorem Step.distinctIds (h : view.Step defaults event e) (hnext : e.next = .ok view')
    (hfetch : ∀ documents, event = .fetchedComments (some documents) →
      ((documents.filterMap id).map (·.id)).Nodup)
    (hview : view.DistinctIds) : view'.DistinctIds := by
  unfold DistinctIds
  rcases h.comments_spec hnext with ⟨documents, hevent, hcomments⟩ |
    ⟨newComment, -, hid, hcomments⟩ | hcomments
  · rw [hcomments]
    exact hfetch documents hevent
  · rw [hcomments, List.map_append, List.map_singleton]
    refine List.nodup_append.mpr ⟨hview, List.pairwise_singleton _ _, ?_⟩
    rintro id hold newId hnew rfl
    obtain ⟨comment, hmem, rfl⟩ := List.mem_map.mp hold
    have hlt := newCommentId_spec hid comment hmem
    rw [List.mem_singleton.mp hnew] at hlt
    exact Std.lt_irrefl hlt
  · rw [hcomments]
    exact hview

end ProtocolDetailView

/-! ## Runs -/

/-- The ids on a page are different as long as the fetches that completed on it
delivered different ones. -/
def IdsDistinct (index : Nat) (process : List Transit) (app : App) : Prop :=
  (∀ e ∈ process, DeliversDistinct index e) →
    ∀ view, app.detailViews[index]? = some view → view.DistinctIds

theorem IdsDistinct.step {index : Nat} {process : List Transit} {s s' : Installed}
    {app app' : App} {action : Action} {effect : AppEffect App}
    (h : app.Step s.stored action effect) (hnext : effect.next = .ok app')
    (hdistinct : IdsDistinct index process app) :
    IdsDistinct index (process ++ [⟨s, .act action, s'⟩]) app' := by
  intro hdelivers view' hview'
  have hearlier : ∀ e ∈ process, DeliversDistinct index e :=
    fun e he => hdelivers e (List.mem_append_left _ he)
  rcases h.detailView_cases hnext hview' with hsame | ⟨-, item, rfl⟩ |
    ⟨event, view, inner, rfl, hview, hstep, hinner⟩
  · exact hdistinct hearlier view' hsame
  · exact List.nodup_nil
  · refine hstep.distinctIds hinner ?_ (hdistinct hearlier view hview)
    rintro documents rfl
    exact hdelivers _ (List.mem_append_right _ (List.mem_singleton_self _)) documents rfl

/-- A tap of the post button that the process survives appends a comment whose
id is above every id present. -/
theorem post_above {e : Transit} (h : machine.Step e.before e.label e.after) {index : Nat}
    (hpost : e.label = .act (.detail index .tapPostComment))
    {view view' : ProtocolDetailView} (hbefore : e.before.page? index = some view)
    (hafter : e.after.page? index = some view') :
    ∃ comment, view'.comments = view.comments ++ [comment] ∧
      ∀ earlier ∈ view.comments, earlier.id < comment.id := by
  rw [hpost] at h
  obtain ⟨app, hmemory, hview⟩ := Option.bind_eq_some_iff.mp hbefore
  obtain ⟨app', hmemory', hview'⟩ := Option.bind_eq_some_iff.mp hafter
  obtain ⟨effect, heffect, -, hnext⟩ := h.act_of_memory hmemory
  have hstep := App.step_of_some heffect
  cases hstep with
  | detail hold hmove =>
      obtain rfl := Option.some.inj (hview.symm.trans hold)
      obtain ⟨after, hinner, rfl⟩ := Effect.map_next_ok ((hnext app').mp hmemory')
      obtain rfl : after = view' := by
        have hset := Tasks.getElem?_set_of_some hview after
        exact Option.some.inj (hset.symm.trans hview')
      cases hmove with
      | commentPosted _ _ _ =>
          obtain ⟨comment, hid, rfl⟩ := ProtocolDetailView.postComment_spec hinner
          exact ⟨comment, rfl, ProtocolDetailView.newCommentId_spec hid⟩

/-- In every run, the comments of a page have different ids as long as the
fetches completed on it delivered different ones, and every post gets an id above
all ids present. -/
theorem commentIds_unique {history : List Transit} {s : Installed}
    (run : Run machine.Step freshInstall history s) (index : Nat) :
    ((∀ e ∈ currentProcess history, DeliversDistinct index e) →
      ∀ view, s.page? index = some view → view.DistinctIds) ∧
    ∀ e ∈ history, e.label = .act (.detail index .tapPostComment) →
      ∀ view view', e.before.page? index = some view → e.after.page? index = some view' →
        ∃ comment, view'.comments = view.comments ++ [comment] ∧
          ∀ earlier ∈ view.comments, earlier.id < comment.id := by
  constructor
  · intro hdelivers view hpage
    obtain ⟨app, hmemory, hview⟩ := Option.bind_eq_some_iff.mp hpage
    have hdistinct : IdsDistinct index (currentProcess history) app := by
      refine Machine.run_process_rule (fun process _ app => IdsDistinct index process app)
        rfl ?_ ?_ run hmemory
      · intro defaults _ view hview
        simp [machine, App.boot] at hview
      · intro process s action s' app effect app' _ _ hdistinct heffect hnext
        exact hdistinct.step (App.step_of_some heffect) hnext
    exact hdistinct hdelivers view hview
  · intro e he hpost view view' hbefore hafter
    obtain ⟨earlier, later, -, -, h⟩ := run.of_mem he
    exact post_above h hpost hbefore hafter

/-- A fetch with negative ids, then a post. -/
theorem commentIds_unique_of_negative : ∃ (history : List Transit) (s : Installed)
    (view : ProtocolDetailView),
    Run machine.Step freshInstall history s ∧ s.page? 0 = some view ∧
      view.comments.map (·.id) = [-5, -3, -2] ∧ view.DistinctIds := by
  have hend : (replay machine.perform freshInstall (writeCommentSchedule ++
      [.act (.detail 0 (.fetchedComments
          (some [some ⟨-5, "user", "first"⟩, none, some ⟨-3, "user", "second"⟩]))),
        .act (.detail 0 .tapPostComment)])).map (fun s =>
          (Installed.page? s 0).map fun view => view.comments.map (·.id)) =
            some (some [-5, -3, -2]) := by
    decide
  obtain ⟨history, s, run, hlabels, hids⟩ := exists_run_of_schedule _ hend
  obtain ⟨view, hview, hids⟩ := Option.map_eq_some_iff.mp hids
  refine ⟨history, s, view, run, hview, hids, (commentIds_unique run 0).1 ?_ view hview⟩
  intro e he documents hlabel
  have hmem := label_mem hlabels (mem_of_mem_currentProcess he)
  rw [hlabel] at hmem
  simp [writeCommentSchedule, signedInSchedule, tapPurchaseSchedule, signInSchedule,
    SignIn.untilQuery, SignIn.walletResponse, Flow.schedule, Flow.action,
    Transaction.untilCompletion] at hmem
  subst hmem
  decide

end YieldMe
