import LayerFs.References.Newest

/-!
# Operations that fail (`references/runs.rs`)

A lookup or a visit leaves the tiers alone, however it ends. A spill takes the runs of the tiers
below the first free one out of the store before it merges them, and a consolidation all runs; when
a merge fails they are gone.

* `BatchStands`, `writeBatch_stands` — **when the pending rows become a run of their own.**
* `failed_sameAnswers_iff` — **when a failed operation leaves the answers as they were.** A lookup
  that failed in the middle of a tier may have left rows behind its scan; such a scan answers less
  than its run, and a spill that drops it brings the rows back.
-/

namespace LayerFs.Tiered

open List

variable {Id τ : Type}
variable {backing : Backing} (bufferBytes index : ℕ) (run : Run Id) (serial : ℕ)

/-! ## What lookups and visits leave as it is -/

namespace Backing

/-- All of the backing but what it refuses from now on. -/
def account (backing : Backing) : Backing := { backing with refusals := [] }

theorem call_keeps : Attempt.Keeps account call := by
  rintro ⟨_ | ⟨_ | e, rest⟩, held, pending, peak⟩
  · rfl
  · rfl
  · rfl

end Backing

theorem Run.readAt_keeps (offset count : ℕ) :
    Attempt.Keeps Backing.account (run.readAt offset count) :=
  Backing.call_keeps.bind fun _ => (Attempt.keeps_check _ _).bind fun _ => Attempt.keeps_pure _

theorem RunScan.fill_keeps : Attempt.Keeps (fun state => state.2.account) (fill run) := by
  refine Attempt.keeps_get.bind fun state => ?_
  dsimp only
  split_ifs
  · refine Attempt.Keeps.bind (Attempt.Keeps.on _ (run.readAt_keeps _ _) fun _ _ h => h) fun _ => ?_
    exact Attempt.keeps_modify fun _ => rfl
  · exact Attempt.keeps_pure _

theorem RunScan.next_keeps : Attempt.Keeps (fun state => state.2.account) (next run) := by
  refine Attempt.keeps_get.bind fun state => ?_
  dsimp only
  split_ifs
  · exact Attempt.keeps_pure _
  · refine (fill_keeps run).bind fun _ => Attempt.keeps_get.bind fun _ => ?_
    refine (Attempt.keeps_demand _ _).bind fun _ => (Attempt.keeps_lift _).bind fun _ => ?_
    exact Attempt.Keeps.bind (Attempt.keeps_modify fun _ => rfl) fun _ => Attempt.keeps_pure _

namespace LookupScan

theorem nextRow_keeps : Attempt.Keeps (fun state => state.2.account) (nextRow run) :=
  Attempt.Keeps.on _ (RunScan.next_keeps run) fun _ _ h => h

theorem seek_keeps : ∀ (n : ℕ) (resume : Option ℕ),
    Attempt.Keeps (fun state => state.2.account) (seek run serial n resume) := by
  intro n
  induction n with
  | zero => exact fun _ _ => rfl
  | succ n ih =>
    refine fun resume => (nextRow_keeps run).bind fun row => ?_
    cases row with
    | none => exact Attempt.keeps_pure _
    | some row =>
      dsimp only
      split_ifs
      · exact Attempt.keeps_pure _
      · exact Attempt.Keeps.bind (Attempt.keeps_modify fun _ => rfl) fun _ => Attempt.keeps_pure _
      · exact ih _

theorem position_keeps : Attempt.Keeps (fun state => state.2.account) (position run serial) := by
  refine Attempt.keeps_get.bind fun state => ?_
  dsimp only
  split_ifs
  · exact (Attempt.keeps_lift _).bind fun _ => Attempt.keeps_modify fun _ => rfl
  · exact Attempt.keeps_pure _

theorem lookup_keeps : Attempt.Keeps (fun state => state.2.account) (lookup run serial) := by
  refine Attempt.keeps_get.bind fun state => ?_
  dsimp only
  split_ifs
  · exact Attempt.keeps_pure _
  · refine (position_keeps run serial).bind fun _ => (seek_keeps run serial _ _).bind fun _ => ?_
    exact Attempt.Keeps.bind (Attempt.keeps_modify fun _ => rfl) fun _ => Attempt.keeps_pure _

end LookupScan

namespace RunStore

def serving (store : RunStore Id) : RunStore Id :=
  { store with backing := store.backing.account }

/-- All of the store but its scans and what is refused from now on. -/
def tiers (store : RunStore Id) : RunStore Id := { store.serving with scans := [] }

theorem serving_backing {store : RunStore Id} (h : backing.account = store.backing.account) :
    ({ store with backing := backing } : RunStore Id).serving = store.serving := by
  rw [serving, serving, h]

theorem tiers_setScan {store : RunStore Id} (scan : LookupScan Id)
    (h : backing.account = store.backing.account) :
    ({ setScan index scan store with backing := backing } : RunStore Id).tiers = store.tiers := by
  rw [tiers, tiers, serving, serving, h]
  rfl

theorem findAt_keeps (index : ℕ) :
    Attempt.Keeps (fun store : RunStore Id => store.tiers) (findAt serial index) := by
  refine Attempt.keeps_get.bind fun store => ?_
  cases store.levels[index]?.join with
  | none => exact Attempt.keeps_pure _
  | some run =>
    dsimp only
    split_ifs
    · exact Attempt.keeps_pure _
    · exact Attempt.Keeps.on (fun state => state.2.account) (LookupScan.lookup_keeps run serial)
        fun _ part h => tiers_setScan index part.1 h

theorem findFrom_keeps : ∀ n index : ℕ,
    Attempt.Keeps (fun store : RunStore Id => store.tiers) (findFrom serial n index) := by
  intro n
  induction n with
  | zero => exact fun _ => Attempt.keeps_pure _
  | succ n ih =>
    refine fun index => (findAt_keeps serial index).bind fun found => ?_
    cases found with
    | some row => exact Attempt.keeps_pure _
    | none => exact ih (index + 1)

/-- **A lookup leaves all but its scans as it is**, however it ends. -/
theorem find_keeps : Attempt.Keeps (fun store : RunStore Id => store.tiers) (find serial) :=
  Attempt.keeps_get.bind fun _ => findFrom_keeps serial _ 0

end RunStore

/-! ### Visits -/

theorem Reading.advance_keeps :
    Attempt.Keeps (fun state : Reading Id × Backing => state.2.account) advance :=
  Attempt.keeps_get.bind fun _ => Attempt.Keeps.bind
    (Attempt.Keeps.on (fun state => state.2.account) (RunScan.next_keeps _) fun _ _ h => h)
    fun _ => Attempt.keeps_modify fun _ => rfl

namespace Visiting

theorem advanceAt_keeps :
    Attempt.Keeps (fun visiting : Visiting Id τ => visiting.backing.account) (advanceAt index) :=
  Attempt.keeps_get.bind fun _ => (Attempt.keeps_demand _ _).bind fun _ =>
    Attempt.Keeps.on (fun state => state.2.account) Reading.advance_keeps fun _ _ h => h

variable (visitor : τ → Entry Id → Except OrderingError (τ × Bool))

theorem turn_keeps :
    Attempt.Keeps (fun visiting : Visiting Id τ => visiting.backing.account) (turn visitor) := by
  refine Attempt.keeps_get.bind fun visiting => ?_
  cases best visiting.readings with
  | none => exact Attempt.keeps_pure _
  | some place =>
    refine (Attempt.keeps_demand _ _).bind fun _ => (Attempt.keeps_demand _ _).bind fun _ =>
      (advanceAt_keeps _).bind fun _ => ?_
    split_ifs
    · exact Attempt.keeps_pure _
    · refine (Attempt.keeps_lift _).bind fun _ => ?_
      exact Attempt.Keeps.bind (Attempt.keeps_modify fun _ => rfl) fun _ => Attempt.keeps_pure _

theorem turns_keeps (n : ℕ) :
    Attempt.Keeps (fun visiting : Visiting Id τ => visiting.backing.account) (turns visitor n) := by
  induction n with
  | zero => exact fun _ => rfl
  | succ n ih =>
    refine (turn_keeps visitor).bind fun more => ?_
    cases more with
    | true => exact ih
    | false => exact Attempt.keeps_pure _

end Visiting

theorem openReading_keeps : Attempt.Keeps Backing.account (openReading bufferBytes run) :=
  Attempt.Keeps.on (fun state => state.2.account) (Reading.advance_keeps.bind fun _ => Attempt.keeps_get.bind fun _ =>
    Attempt.keeps_pure _) fun _ _ h => h

theorem openReadings_keeps : ∀ runs : List (Run Id),
    Attempt.Keeps Backing.account (openReadings bufferBytes runs) := by
  intro runs
  induction runs with
  | nil => exact Attempt.keeps_pure _
  | cons run rest ih =>
    exact (openReading_keeps bufferBytes run).bind fun _ => ih.bind fun _ => Attempt.keeps_pure _

/-- **A visit leaves all of the store as it is**, however it ends. -/
theorem RunStore.visit_keeps (visitor : τ → Entry Id → Except OrderingError (τ × Bool)) (value : τ) :
    Attempt.Keeps (fun store : RunStore Id => store.serving) (visit visitor value) := by
  refine Attempt.keeps_get.bind fun store => Attempt.Keeps.bind
    (Attempt.Keeps.on Backing.account (openReadings_keeps _ _) fun _ _ => serving_backing)
    fun readings => ?_
  refine Attempt.Keeps.on Backing.account (Attempt.Keeps.on
    (fun visiting => visiting.backing.account) ?_ fun _ _ h => h) fun _ _ => serving_backing
  exact (Visiting.turns_keeps visitor _).bind fun _ => Attempt.keeps_get.bind fun _ =>
    Attempt.keeps_pure _

/-! ## When a batch is written -/

def Backing.Allows (calls : ℕ) (backing : Backing) : Prop :=
  ∀ refusal ∈ backing.refusals.take calls, refusal = none

theorem Backing.allows_add {n k : ℕ} {backing later : Backing}
    (hlater : later.refusals = backing.refusals.drop n) :
    backing.Allows (n + k) ↔ backing.Allows n ∧ later.Allows k := by
  rw [Allows, Allows, Allows, hlater, take_add, forall_mem_append]

theorem Backing.Allows.mono {n k : ℕ} (h : backing.Allows k) (hn : n ≤ k) : backing.Allows n := by
  intro refusal hrefusal
  rw [← Nat.min_eq_left hn, ← take_take] at hrefusal
  exact h refusal (mem_of_mem_take hrefusal)

theorem Backing.call_allows (backing : Backing) :
    call.Ensures backing
      (fun _ later => later.refusals = backing.refusals.drop 1 ∧ backing.Allows 1)
      fun _ _ => ¬ backing.Allows 1 := by
  obtain ⟨_ | ⟨_ | e, rest⟩, held, pending, peak⟩ := backing
  · exact ⟨rfl, forall_mem_nil _⟩
  · exact ⟨rfl, forall_mem_singleton.mpr rfl⟩
  · intro hallows
    cases hallows _ mem_cons_self

namespace RunStore

variable {store : RunStore Id} {whole : Prop}

theorem writeRows_allows (rows : List (Entry Id)) : ∀ backing : Backing,
    (writeRows rows).Ensures backing
      (fun _ later => later.refusals = backing.refusals.drop rows.length ∧
        backing.Allows rows.length)
      fun _ _ => ¬ backing.Allows rows.length := by
  induction rows with
  | nil => exact fun backing => ⟨rfl, forall_mem_nil _⟩
  | cons row rest ih =>
    intro backing
    have hadd := fun later => @Backing.allows_add 1 rest.length backing later
    rw [length_cons, Nat.add_comm]
    refine Attempt.ensures_bind_iff.mpr (Attempt.ensures_bind_iff.mpr
      (Attempt.ensures_modify_iff.mpr ((Backing.call_allows _).mono ?_ ?_)))
    · rintro _ first ⟨hfirst, hallows⟩
      refine (ih first).mono ?_ fun _ _ hrefused hall => hrefused ((hadd first hfirst).mp hall).2
      rintro _ later ⟨hlater, hrest⟩
      refine ⟨?_, (hadd first hfirst).mpr ⟨hallows, hrest⟩⟩
      rw [hlater, hfirst, drop_drop]
      rfl
    · exact fun _ _ hrefused hall => hrefused (hall.mono (Nat.le_add_right 1 _))

/-- A spill opens its tier when there is room for the pending rows and their run, and a tier is
left. -/
structure Opens (rows : ℕ) (store : RunStore Id) : Prop where
  bytes : rows * rowBytes < u64Bound
  pending : store.Room (min (2 * (rows * rowBytes)) (u64Bound - 1))
  run : (store.charged (rows * rowBytes) store.backing).Room (rows * rowBytes)
  level : store.freeLevel < maximumLevels

/-- **The pending rows become a run of their own** exactly when, besides, the caller supplied a
backing, and it refuses none of the calls. -/
structure BatchStands (rows : ℕ) (store : RunStore Id) : Prop extends Opens rows store where
  backed : store.backed = true
  calls : store.backing.Allows (1 + (rows + 1))

/-- What a spill leaves that could not write its batch: the tiers, opened or as they were. -/
inductive Unwritten (rows : ℕ) (store later : RunStore Id) : Prop
  | closed (hopens : ¬ Opens rows store) (pendingBytes : ℕ) (backing : Backing)
      (hlater : later = store.charged pendingBytes backing)
  | opened (hopens : Opens rows store) (hstands : ¬ BatchStands rows store) (pendingBytes : ℕ)
      (backing : Backing) (hlater : later = store.opened.charged pendingBytes backing)

theorem reserve_room (bytes : ℕ) (store : RunStore Id) :
    (reserve bytes).Ensures store (fun _ later => later = store ∧ store.Room bytes)
      fun _ later => later = store ∧ ¬ store.Room bytes := by
  refine Attempt.ensures_bind_iff.mpr (Attempt.ensures_get_iff.mpr ?_)
  refine Attempt.ensures_bind_iff.mpr (Attempt.Ensures.check (fun hfits => ?_) fun hfits =>
    ⟨rfl, fun hroom => of_decide_eq_false hfits hroom.1⟩)
  exact Attempt.Ensures.check
    (fun hlimit => ⟨rfl, of_decide_eq_true hfits, of_decide_eq_true hlimit⟩)
    fun hlimit => ⟨rfl, fun hroom => of_decide_eq_false hlimit hroom.2⟩

theorem writeBatch_stands {pending : List (Entry Id)} (hpending : pending ≠ [])
    (store : RunStore Id) :
    (writeBatch pending).Ensures store (fun _ _ => BatchStands pending.length store)
      fun _ later => Unwritten pending.length store later := by
  obtain ⟨run, hrun⟩ : ∃ run, Run.ofRows pending = some run := by
    obtain ⟨row, rest, rfl⟩ := exists_cons_of_ne_nil hpending
    exact ⟨_, rfl⟩
  refine Attempt.ensures_bind_iff.mpr (Attempt.ensures_bind_iff.mpr (Attempt.Ensures.check
    (fun hbytes => ?_) fun hbytes =>
      .closed (fun hopens => of_decide_eq_false hbytes hopens.bytes) _ _ rfl))
  refine Attempt.ensures_bind_iff.mpr ((reserve_room _ store).mono ?_ ?_)
  swap
  · rintro _ _ ⟨rfl, hroom⟩
    exact .closed (fun hopens => hroom hopens.pending) _ _ rfl
  rintro _ left ⟨hleft, hpendingRoom⟩
  obtain rfl := hleft.symm
  refine Attempt.ensures_modify_iff.mpr ?_
  refine Attempt.ensures_bind_iff.mpr (Attempt.ensures_bind_iff.mpr (Attempt.ensures_get_iff.mpr
    (Attempt.ensures_bind_iff.mpr ((reserve_room _ _).mono ?_ ?_))))
  swap
  · rintro _ _ ⟨rfl, hroom⟩
    exact .closed (fun hopens => hroom hopens.run) _ _ rfl
  rintro _ left ⟨hleft, hrunRoom⟩
  obtain rfl := hleft.symm
  refine Attempt.ensures_bind_iff.mpr (Attempt.Ensures.check (fun hlevel => ?_)
    fun hlevel => .closed (fun hopens => of_decide_eq_false hlevel hopens.level) _ _ rfl)
  have hopens : Opens pending.length store :=
    ⟨of_decide_eq_true hbytes, hpendingRoom, hrunRoom, of_decide_eq_true hlevel⟩
  have hfails : ¬ BatchStands pending.length store → ∀ pendingBytes backing,
      Unwritten pending.length store (store.opened.charged pendingBytes backing) :=
    fun hstands _ _ => .opened hopens hstands _ _ rfl
  refine Attempt.ensures_bind_iff.mpr (Attempt.ensures_modify_iff.mpr ?_)
  refine Attempt.ensures_pure_iff.mpr ?_
  refine Attempt.ensures_bind_iff.mpr (Attempt.ensures_bind_iff.mpr (Attempt.ensures_get_iff.mpr
    (Attempt.Ensures.check (fun hbacked => ?_) fun hbacked => hfails
      (fun hstands => Bool.false_ne_true (hbacked.symm.trans hstands.backed)) _ _)))
  refine Attempt.ensures_bind_iff.mpr (Attempt.ensures_on_iff.mpr
    ((Backing.call_allows _).mono ?_ ?_))
  · rintro _ created ⟨hcreated, hcreate⟩
    have hadd := @Backing.allows_add 1 (pending.length + 1) _ created hcreated
    refine Attempt.ensures_bind_iff.mpr (Attempt.ensures_on_iff.mpr
      ((writeRows_allows pending created).mono ?_ ?_))
    · rintro _ written ⟨hwritten, hwrite⟩
      have hadd' := @Backing.allows_add pending.length 1 _ written hwritten
      refine Attempt.ensures_bind_iff.mpr (Attempt.ensures_on_iff.mpr
        ((Backing.call_allows written).mono ?_ ?_))
      · rintro _ flushed ⟨-, hflush⟩
        rw [hrun]
        exact ⟨hopens, hbacked, hadd.mpr ⟨hcreate, hadd'.mpr ⟨hwrite, hflush⟩⟩⟩
      · exact fun _ _ hrefused => hfails (fun hstands => hrefused
          (hadd'.mp (hadd.mp hstands.calls).2).2) _ _
    · exact fun _ _ hrefused => hfails (fun hstands => hrefused
        ((hadd.mp hstands.calls).2.mono (Nat.le_add_right _ 1))) _ _
  · exact fun _ _ hrefused => hfails (fun hstands => hrefused
      (hstands.calls.mono (Nat.le_add_right 1 _))) _ _

/-! ## Answers -/

/-- Two stores answer every lookup and every visit alike when nothing is refused. -/
structure SameAnswers (store later : RunStore Id) : Prop where
  find : ∀ serial, (RunStore.find serial later.serving).1 = (RunStore.find serial store.serving).1
  visit : ∀ {τ : Type} (visitor : τ → Entry Id → Except OrderingError (τ × Bool)) (value : τ),
    (RunStore.visit visitor value later.serving).1 = (RunStore.visit visitor value store.serving).1

/-- Two stores show the same: their runs hold the same rows, and their tiers answer every lookup
alike from the scans at them. -/
structure Alike (store other : RunStore Id) : Prop where
  rows : other.rows = store.rows
  seen : ∀ serial, other.seen serial = store.seen serial

theorem sound_serving_iff : store.serving.Sound whole ↔ store.Sound whole :=
  ⟨fun h => ⟨h.valid, h.bounded, h.readable, h.scans⟩,
    fun h => ⟨h.valid, h.bounded, h.readable, h.scans⟩⟩

/-- **Sound stores answer alike** exactly when they show the same. -/
theorem sameAnswers_iff {later : RunStore Id} (h : store.Sound whole) (h' : later.Sound whole) :
    SameAnswers store later ↔ Alike store later := by
  have hanswers := (sound_serving_iff.mpr h).answers (forall_mem_nil _)
  have hanswers' := (sound_serving_iff.mpr h').answers (forall_mem_nil _)
  refine ⟨fun hsame => ⟨?_, fun serial => ?_⟩, fun halike => ⟨fun serial => ?_,
    fun visitor value => ?_⟩⟩
  · have hvisit := hsame.visit collect []
    rw [hanswers'.2, hanswers.2, feed_collect, feed_collect] at hvisit
    exact Except.ok.inj hvisit
  · have hfind := hsame.find serial
    rw [hanswers'.1, hanswers.1] at hfind
    exact Option.map_injective (Prod.mk_right_injective serial) (Except.ok.inj hfind)
  · rw [hanswers'.1, hanswers.1]
    exact congrArg (fun seen => Except.ok (seen.map (Prod.mk serial))) (halike.seen serial)
  · rw [hanswers'.2, hanswers.2]
    exact congrArg (fun rows => feed visitor rows value) halike.rows

/-- **Whole scans dropped change no answer.** -/
theorem Sound.alike_opened (h : store.Sound whole) (hwhole : whole) :
    Alike store store.opened := by
  have hrows : store.opened.rows = store.rows := by rw [rows, rows, live_opened]
  refine ⟨hrows, fun serial => ?_⟩
  rw [h.opened.seen_eq hwhole, h.seen_eq hwhole, hrows]

/-! ## Stores that are reached -/

/-- The stores reached by operations, those that fail among them. -/
inductive Reached : RunStore Id → Prop
  | new (backed : Bool) (refusals : List (Option OrderingError)) (mergeBuffer limit : ℕ) :
    Reached (.new backed refusals mergeBuffer limit)
  | spill {store : RunStore Id} (h : Reached store) {pending : SortedMap ℕ (Row Id)}
    (hrows : ∀ row ∈ pending.entries, Bounded row ∧ Readable row) :
    Reached (RunStore.spill pending store).2
  | consolidate {store : RunStore Id} (h : Reached store) : Reached (RunStore.consolidate store).2
  | find {store : RunStore Id} (h : Reached store) (serial : ℕ) :
    Reached (RunStore.find serial store).2
  | visit {store : RunStore Id} (h : Reached store) {τ : Type}
    (visitor : τ → Entry Id → Except OrderingError (τ × Bool)) (value : τ) :
    Reached (RunStore.visit visitor value store).2

theorem spill_nil {pending : SortedMap ℕ (Row Id)} (hpending : pending.entries = []) :
    RunStore.spill pending store = (.ok (), store) := by
  rw [RunStore.spill, if_pos (List.isEmpty_iff.mpr hpending)]
  rfl

theorem Sound.spill (h : store.Sound whole) {pending : SortedMap ℕ (Row Id)}
    (hrows : ∀ row ∈ pending.entries, Bounded row ∧ Readable row) :
    (RunStore.spill pending store).2.Sound whole := by
  by_cases hpending : pending.entries = []
  · rw [spill_nil hpending]
    exact h
  · have hspill := spill_ensures h hpending
    rcases hresult : RunStore.spill pending store with ⟨e | _, later⟩
    · exact (hspill.of_error hresult).1
    · exact (hspill.of_ok hresult hrows).1

/-- **Reached stores are sound**, though a lookup that failed may have left rows behind. -/
theorem Reached.sound (h : Reached store) : store.Sound False := by
  induction h with
  | new backed refusals mergeBuffer limit => exact (Operation.new_stands _ _ _ _).sound.weaken
  | spill h hrows ih => exact ih.spill hrows
  | @consolidate store h ih =>
    have hconsolidate := consolidate_ensures ih
    rcases hresult : RunStore.consolidate store with ⟨e | _, later⟩
    · exact (hconsolidate.of_error hresult).1
    · exact (hconsolidate.of_ok hresult).1
  | @find store h serial ih =>
    have hfind := find_ensures ih serial
    rcases hresult : RunStore.find serial store with ⟨e | _, later⟩
    · exact (hfind.of_error hresult).1
    · exact (hfind.of_ok hresult).2.sound
  | @visit store h τ visitor value ih =>
    have hkeeps : (RunStore.visit visitor value store).2.serving = store.serving :=
      visit_keeps visitor value store
    rw [← sound_serving_iff, hkeeps]
    exact sound_serving_iff.mpr ih

/-! ## What a failed operation leaves -/

theorem Sound.live_eq_nil (h : store.Sound whole) (hrows : store.rows = []) : store.live = [] := by
  cases hlive : store.live with
  | nil => rfl
  | cons run rest =>
    exfalso
    have hrun : run ∈ store.live := hlive ▸ mem_cons_self
    obtain ⟨row, rows, hsome⟩ := exists_cons_of_ne_nil (h.valid run hrun).rows_ne_nil
    have hlookup := h.lookup_rows row.1
    rw [hrows, hlive, findSome?_cons, hsome, lookup_cons_self] at hlookup
    cases hlookup

/-- **When a failed operation leaves the answers as they were**: a failed spill always does before
it opens its tier, then exactly when the scans it drops answered as fresh ones do, and in a merge
exactly when the tiers above the first free one show what the whole store does; a failed
consolidation never does. -/
theorem failed_sameAnswers_iff (h : Reached store) :
    (∀ {pending : SortedMap ℕ (Row Id)} {e : OrderingError} {later : RunStore Id},
      RunStore.spill pending store = (.error e, later) →
        (SameAnswers store later ↔
          (Opens pending.entries.length store → ¬ BatchStands pending.entries.length store →
            Alike store store.opened) ∧
          (BatchStands pending.entries.length store → Alike store store.upper))) ∧
    ∀ {e : OrderingError} {later : RunStore Id},
      RunStore.consolidate store = (.error e, later) → ¬ SameAnswers store later := by
  refine ⟨fun {pending e later} hspill => ?_, fun {e later} hconsolidate hsame => ?_⟩
  · have hpending : pending.entries ≠ [] := by
      intro hnil
      rw [spill_nil hnil] at hspill
      cases congrArg Prod.fst hspill
    obtain ⟨hsound, hfails⟩ := (spill_ensures h.sound hpending).of_error hspill
    have hstands := writeBatch_stands hpending store
    rw [sameAnswers_iff h.sound hsound]
    cases hfails with
    | unwritten e left hbatch hleft =>
      subst hleft
      cases hstands.of_error hbatch with
      | closed hopens pendingBytes backing hlater =>
        subst hlater
        exact iff_of_true ⟨rfl, fun _ => rfl⟩ ⟨fun hyes => absurd hyes hopens,
          fun hyes => absurd hyes.toOpens hopens⟩
      | opened hopens hstands pendingBytes backing hlater =>
        subst hlater
        refine ⟨fun halike => ⟨fun _ _ => ⟨halike.rows, halike.seen⟩,
          fun hyes => absurd hyes hstands⟩, fun hcondition => ?_⟩
        have halike := hcondition.1 hopens hstands
        exact ⟨halike.rows, halike.seen⟩
    | unmerged batch left hbatch pendingBytes backing mergeInputBytes hleft =>
      subst hleft
      have hyes : BatchStands pending.entries.length store := hstands.of_ok hbatch
      refine ⟨fun halike => ⟨fun _ hno => absurd hyes hno, fun _ => ⟨halike.rows, halike.seen⟩⟩,
        fun hcondition => ?_⟩
      have halike := hcondition.2 hyes
      exact ⟨halike.rows, halike.seen⟩
  · obtain ⟨hsound, htwo, hlive⟩ := (consolidate_ensures h.sound).of_error hconsolidate
    have hrows : store.rows = [] := by
      rw [← ((sameAnswers_iff h.sound hsound).mp hsame).rows, rows, hlive]
      rfl
    rw [h.sound.live_eq_nil hrows] at htwo
    cases htwo

/-- A store with one row whose backing refuses a call after so many. -/
def refusedAfter (calls : ℕ) : RunStore ℕ :=
  (RunStore.spill (oneRow 1) (.new true (List.replicate calls none ++ [some .io]) 96 4096)).2

theorem oneRow_rows (serial : ℕ) (hserial : serial ≠ 0) (hbounded : serial + 1 < u64Bound) :
    ∀ row ∈ (oneRow serial).entries, Bounded row ∧ Readable row := by
  intro row hrow
  rw [oneRow, mem_singleton] at hrow
  subst hrow
  exact ⟨hbounded, if_neg hserial⟩

/-- The second batch cannot be written: the first is still there. -/
theorem failed_sameAnswers_unwritten :
    SameAnswers (refusedAfter 3) (RunStore.spill (oneRow 2) (refusedAfter 3)).2 := by
  have hfails : (RunStore.spill (oneRow 2) (refusedAfter 3)).1 = .error .io := by decide +kernel
  have hrows := oneRow_rows 1 (by decide) (by decide)
  have hsound : (refusedAfter 3).Sound True := (Operation.new_stands _ _ _ _).sound.spill hrows
  have hrefused : ¬ BatchStands 1 (refusedAfter 3) := by
    intro hstands
    have hfirst : some OrderingError.io ∈ (refusedAfter 3).backing.refusals.take 3 := by
      decide +kernel
    cases hstands.calls _ hfirst
  exact ((failed_sameAnswers_iff (.spill (.new _ _ _ _) hrows)).1 (Prod.ext hfails rfl)).mpr
    ⟨fun _ _ => hsound.alike_opened trivial, fun hstands => absurd hstands hrefused⟩

/-- **A merge that fails loses rows**: the run it was about to merge is gone. -/
theorem failed_spill_loses_rows :
    (RunStore.spill (oneRow 2) (refusedAfter 6)).1 = .error .io ∧
    (RunStore.find 1 (refusedAfter 6)).1 = .ok (some (1, .count none 1)) ∧
    (RunStore.find 1 (RunStore.spill (oneRow 2) (refusedAfter 6)).2).1 = .ok none ∧
    ¬ SameAnswers (refusedAfter 6) (RunStore.spill (oneRow 2) (refusedAfter 6)).2 := by
  refine ⟨by decide +kernel, by decide +kernel, by decide +kernel, fun hsame => ?_⟩
  have hbefore : (RunStore.find 1 (refusedAfter 6).serving).1 =
      .ok (some (1, .count none 1)) := by decide +kernel
  have hafter : (RunStore.find 1 (RunStore.spill (oneRow 2) (refusedAfter 6)).2.serving).1 =
      .ok none := by decide +kernel
  have hfind := hsame.find 1
  rw [hbefore, hafter] at hfind
  cases Except.ok.inj hfind

/-- A store whose last lookup, of serial 3, was refused after it had passed the row of serial 2. -/
def passedTwo : RunStore ℕ :=
  let spilled := (RunStore.spill ⟨[(1, .count none 1), (2, .count none 1), (3, .count none 1)],
    by decide⟩ (.new true (List.replicate 7 none ++ [some .io, some .io]) 96 4096)).2
  (RunStore.find 3 (RunStore.find 1 spilled).2).2

-- the spill cannot create its run, but it has dropped the scan that had passed the row
example : (RunStore.spill (oneRow 9) passedTwo).1 = .error .io ∧
    (RunStore.find 2 passedTwo.serving).1 = .ok none ∧
    (RunStore.find 2 (RunStore.spill (oneRow 9) passedTwo).2.serving).1 =
      .ok (some (2, .count none 1)) := by decide +kernel

end RunStore

end LayerFs.Tiered
