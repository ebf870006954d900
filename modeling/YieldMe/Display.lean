/-
  Display.lean --- what the two screens make of a protocol document.

  Both screens compute with the rating of a document: a row of the list repeats
  its lock over `0..<rating`, and the page gives `rating * 20` to a gauge titled
  "out of 100".  The page also unwraps the URL of the whitepaper; which texts are
  URLs is Foundation's to say, and is a parameter here.  The decoder checks none of
  this, and a document it rejects is left out of the list.
-/
import YieldMe.Steps

set_option autoImplicit false

namespace YieldMe

open Durable Transition

/-- The places where building a screen from a document can trap. -/
inductive DisplayTrap where
  /-- the range `0..<rating` of a row -/
  | range
  /-- the product `rating * 20` of a page -/
  | multiplication
  /-- `URL(string: protocolItem.whitepaper)!` -/
  | whitepaper
  deriving DecidableEq, Repr

/-- `0..<bound`: the number of its elements. -/
def halfOpenRange (bound : Int64) : Except DisplayTrap Nat :=
  if 0 ≤ bound.toInt then .ok bound.toInt.toNat else .error .range

/-- `x * y`. -/
def multiplied (x y : Int64) : Except DisplayTrap Int64 :=
  if Int64.minValue.toInt ≤ x.toInt * y.toInt ∧ x.toInt * y.toInt ≤ Int64.maxValue.toInt then
    .ok (x * y)
  else .error .multiplication

/-- `URL(string: text)!`; the text itself stands for its URL. -/
def unwrapURL (urlParses : String → Bool) (text : String) : Except DisplayTrap String :=
  if urlParses text then .ok text else .error .whitepaper

/-- A row of the protocol list, without its yearly rate. -/
structure ProtocolRow where
  title : String
  chain : String
  locks : Nat
  rating : String
  deriving DecidableEq, Repr

/-- `GaugeView(title:value:colors:)`. -/
structure Gauge where
  title : String
  value : Int64
  deriving DecidableEq

/-- What the page of a protocol shows of its document. -/
structure ProtocolPage where
  image : String
  title : String
  url : String
  shortDescription : String
  tvl : String
  launchDate : String
  blockchain : String
  whitepaper : String
  securityScore : String
  gauge : Gauge
  deriving DecidableEq

/-- The row of an item in `mainList`. -/
def ContentView.protocolRow (item : ProtocolItem) : Except DisplayTrap ProtocolRow := do
  let locks ← halfOpenRange item.rating
  return {
    title := item.name
    chain := "Chain: " ++ item.network
    locks := locks
    rating := "Rating: " ++ toString item.rating.toInt ++ "/5" }

/-- The protocol rows of `mainList`. -/
def ContentView.protocolRows (items : List ProtocolItem) :
    Except DisplayTrap (List ProtocolRow) :=
  items.mapM protocolRow

/-- The sections of `ProtocolDetailView` that show the item. -/
def ProtocolDetailView.page (urlParses : String → Bool) (item : ProtocolItem) :
    Except DisplayTrap ProtocolPage := do
  let whitepaper ← unwrapURL urlParses item.whitepaper
  let value ← multiplied item.rating 20
  return {
    image := item.name
    title := item.name
    url := item.url
    shortDescription := item.shortDescription
    tvl := item.tvl
    launchDate := item.launchDate
    blockchain := item.network
    whitepaper := whitepaper
    securityScore := toString item.rating.toInt ++ " / 5"
    gauge := ⟨"out of 100", value⟩ }

/-- The page of the item is built, with a gauge in its range. -/
def PageDisplays (urlParses : String → Bool) (item : ProtocolItem) : Prop :=
  ∃ page, ProtocolDetailView.page urlParses item = .ok page ∧
    0 ≤ page.gauge.value.toInt ∧ page.gauge.value.toInt ≤ 100

/-- All rows of the list are built, and the page of every item. -/
def Displays (urlParses : String → Bool) (items : List ProtocolItem) : Prop :=
  (∃ rows, ContentView.protocolRows items = .ok rows) ∧
    ∀ item ∈ items, PageDisplays urlParses item

/-- What the screens need of an item: a rating of zero to five, and a whitepaper
at a URL. -/
structure Displayable (urlParses : String → Bool) (item : ProtocolItem) : Prop where
  rating_nonneg : 0 ≤ item.rating.toInt
  rating_le : item.rating.toInt ≤ 5
  whitepaper : urlParses item.whitepaper = true

/-! ## The trapping operations -/

theorem halfOpenRange_isOk {bound : Int64} :
    (∃ count, halfOpenRange bound = .ok count) ↔ 0 ≤ bound.toInt := by
  unfold halfOpenRange
  by_cases hbound : 0 ≤ bound.toInt <;> simp [hbound]

theorem multiplied_eq_ok {x y z : Int64} (h : multiplied x y = .ok z) :
    z.toInt = x.toInt * y.toInt := by
  unfold multiplied at h
  split at h
  · rename_i hrange
    rw [Int64.toInt_minValue, Int64.toInt_maxValue] at hrange
    rw [← Except.ok.inj h, Int64.toInt_mul]
    exact Int.bmod_eq_of_le (by omega) (by omega)
  · cases h

/-- A rating of zero to five is multiplied without overflow. -/
theorem multiplied_isOk {rating : Int64} (hnonneg : 0 ≤ rating.toInt)
    (hle : rating.toInt ≤ 5) : ∃ z, multiplied rating 20 = .ok z := by
  have htwenty : (20 : Int64).toInt = 20 := by decide
  refine ⟨rating * 20, if_pos ?_⟩
  rw [Int64.toInt_minValue, Int64.toInt_maxValue, htwenty]
  omega

theorem unwrapURL_eq_ok {urlParses : String → Bool} {text url : String} :
    unwrapURL urlParses text = .ok url ↔ urlParses text = true ∧ text = url := by
  unfold unwrapURL
  by_cases hparses : urlParses text = true <;> simp [hparses]

/-! ## Rows and pages -/

/-- A list is mapped without a trap exactly when every member is. -/
theorem mapM_isOk {ε α β : Type} {f : α → Except ε β} {items : List α} :
    (∃ results, items.mapM f = .ok results) ↔ ∀ a ∈ items, ∃ b, f a = .ok b := by
  induction items with
  | nil => exact iff_of_true ⟨[], rfl⟩ (by simp)
  | cons a rest ih =>
      rw [List.forall_mem_cons, ← ih, List.mapM_cons]
      constructor
      · rintro ⟨results, h⟩
        obtain ⟨b, hb, h⟩ := bind_eq_ok.mp h
        obtain ⟨results, hrest, -⟩ := bind_eq_ok.mp h
        exact ⟨⟨b, hb⟩, results, hrest⟩
      · rintro ⟨⟨b, hb⟩, results, hrest⟩
        exact ⟨b :: results, by rw [hb, hrest]; rfl⟩

theorem protocolRow_isOk {item : ProtocolItem} :
    (∃ row, ContentView.protocolRow item = .ok row) ↔ 0 ≤ item.rating.toInt := by
  rw [← halfOpenRange_isOk]
  constructor
  · rintro ⟨row, h⟩
    obtain ⟨locks, hlocks, -⟩ := bind_eq_ok.mp h
    exact ⟨locks, hlocks⟩
  · rintro ⟨locks, hlocks⟩
    exact ⟨_, bind_eq_ok.mpr ⟨locks, hlocks, rfl⟩⟩

theorem pageDisplays_iff {urlParses : String → Bool} {item : ProtocolItem} :
    PageDisplays urlParses item ↔ Displayable urlParses item := by
  have htwenty : (20 : Int64).toInt = 20 := by decide
  constructor
  · rintro ⟨page, h, hlow, hhigh⟩
    obtain ⟨whitepaper, hwhitepaper, h⟩ := bind_eq_ok.mp h
    obtain ⟨value, hvalue, h⟩ := bind_eq_ok.mp h
    have hpage := Except.ok.inj h
    subst hpage
    have hproduct := multiplied_eq_ok hvalue
    simp only [hproduct, htwenty] at hlow hhigh
    exact ⟨by omega, by omega, (unwrapURL_eq_ok.mp hwhitepaper).1⟩
  · rintro ⟨hnonneg, hle, hparses⟩
    obtain ⟨value, hvalue⟩ := multiplied_isOk hnonneg hle
    have hproduct := multiplied_eq_ok hvalue
    rw [htwenty] at hproduct
    refine ⟨_, bind_eq_ok.mpr ⟨item.whitepaper, unwrapURL_eq_ok.mpr ⟨hparses, rfl⟩,
      bind_eq_ok.mpr ⟨value, hvalue, rfl⟩⟩, ?_, ?_⟩
    · show 0 ≤ value.toInt
      omega
    · show value.toInt ≤ 100
      omega

/-- The rows add nothing to what the pages need. -/
theorem displays_iff_displayable {urlParses : String → Bool} {items : List ProtocolItem} :
    Displays urlParses items ↔ ∀ item ∈ items, Displayable urlParses item := by
  unfold Displays ContentView.protocolRows
  rw [mapM_isOk]
  constructor
  · rintro ⟨-, hpages⟩ item hitem
    exact pageDisplays_iff.mp (hpages item hitem)
  · intro hitems
    exact ⟨fun item hitem => protocolRow_isOk.mpr (hitems item hitem).rating_nonneg,
      fun item hitem => pageDisplays_iff.mpr (hitems item hitem)⟩

/-- The documents of a fetch can all be displayed exactly when each one that
decodes has a rating of zero to five and a whitepaper at a URL. -/
theorem displays_iff (urlParses : String → Bool) (documents : List (Option ProtocolItem)) :
    Displays urlParses (documents.filterMap id) ↔
      ∀ item ∈ documents.filterMap id, Displayable urlParses item :=
  displays_iff_displayable

theorem not_always_displays :
    ¬ ∀ (urlParses : String → Bool) (documents : List (Option ProtocolItem)),
      (∀ item ∈ documents.filterMap id, urlParses item.whitepaper = true) →
        Displays urlParses (documents.filterMap id) := by
  intro hall
  have hdisplays := hall (fun _ => true)
    [some ⟨1, "Pool", -1, "url", "description", "tvl", "date", "network", "whitepaper"⟩]
    (fun _ _ => rfl)
  obtain ⟨rows, hrows⟩ := hdisplays.1
  have htrap : ContentView.protocolRows
      [⟨1, "Pool", -1, "url", "description", "tvl", "date", "network", "whitepaper"⟩] =
        .error .range := rfl
  cases htrap.symm.trans hrows

/-! ## The items of a process -/

/-- The item of a page does not change. -/
theorem ProtocolDetailView.Step.protocolItem_eq {defaults : UserDefaultsManager}
    {view view' : ProtocolDetailView} {event : ProtocolDetailView.Event}
    {e : AppEffect ProtocolDetailView} (h : view.Step defaults event e)
    (hnext : e.next = .ok view') : view'.protocolItem = view.protocolItem := by
  cases h with
  | fetchFailed _ => cases hnext
  | commentPosted _ _ _ =>
      obtain ⟨newComment, rfl⟩ := postComment_eq hnext
      rfl
  | @deposit task t event _ _ _ =>
      obtain ⟨t', -, rfl⟩ := Effect.map_next_ok hnext
      cases event <;> rfl
  | _ =>
      have hinj := Except.ok.inj hnext
      subst hinj
      rfl

/-- The list changes with a fetch and in no other way. -/
theorem ContentView.Step.items_cases {defaults : UserDefaultsManager}
    {view view' : ContentView} {event : ContentView.Event} {e : AppEffect ContentView}
    (h : view.Step defaults event e) (hnext : e.next = .ok view') :
    view'.items = view.items ∨
      ∃ documents, event = .fetchedProtocols (some documents) ∧
        view'.items = documents.filterMap id := by
  cases h with
  | fetchFailed _ => cases hnext
  | fetched _ =>
      have hinj := Except.ok.inj hnext
      subst hinj
      exact .inr ⟨_, rfl, rfl⟩
  | signIn _ hstep =>
      rcases (signInStep_sound hstep).frame hnext with ⟨challenge, wallet, -, rfl⟩ |
        ⟨toast, signIns, rfl⟩ <;> exact .inl rfl
  | refresh _ hstep =>
      obtain ⟨balance, refreshes, rfl⟩ := hstep.frame hnext
      exact .inl rfl
  | _ =>
      have hinj := Except.ok.inj hnext
      subst hinj
      exact .inl rfl

namespace App

/-- A law of every item a process lists or shows a page of. -/
def AllItems (P : ProtocolItem → Prop) (app : App) : Prop :=
  (∀ item ∈ app.contentView.items, P item) ∧ ∀ view ∈ app.detailViews, P view.protocolItem

/-- The rule for laws of every item: a fetch delivers them, and a page takes one
from the list. -/
theorem Step.allItems {P : ProtocolItem → Prop} {defaults : UserDefaultsManager}
    {app app' : App} {action : Action} {e : AppEffect App} (h : app.Step defaults action e)
    (hnext : e.next = .ok app')
    (hfetch : ∀ documents, action = .content (.fetchedProtocols (some documents)) →
      ∀ item ∈ documents.filterMap id, P item)
    (hP : app.AllItems P) : app'.AllItems P := by
  obtain ⟨hitems, hpages⟩ := hP
  cases h with
  | content h =>
      obtain ⟨view, hview, rfl⟩ := Effect.map_next_ok hnext
      rw [AllItems, contentView_afterContent, detailViews_afterContent]
      rcases h.items_cases hview with hsame | ⟨documents, rfl, hdelivered⟩
      · rw [hsame]
        exact ⟨hitems, hpages⟩
      · rw [hdelivered]
        exact ⟨hfetch documents rfl, hpages⟩
  | pass _ _ =>
      obtain ⟨view, -, rfl⟩ := Effect.map_next_ok hnext
      unfold afterPass
      split <;> exact ⟨hitems, hpages⟩
  | detail hview h =>
      obtain ⟨view', hview', rfl⟩ := Effect.map_next_ok hnext
      refine ⟨hitems, fun view hmem => ?_⟩
      rcases List.mem_or_eq_of_mem_set hmem with hold | rfl
      · exact hpages view hold
      · rw [h.protocolItem_eq hview']
        exact hpages _ (List.mem_of_getElem? hview)
  | openDetail hitem =>
      have hinj := Except.ok.inj hnext
      subst hinj
      refine ⟨hitems, fun view hmem => ?_⟩
      rcases List.mem_append.mp hmem with hold | hnew
      · exact hpages view hold
      · rw [List.mem_singleton.mp hnew]
        exact hitems _ hitem

end App

end YieldMe
