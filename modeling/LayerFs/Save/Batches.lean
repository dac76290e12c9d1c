import LayerFs.Save.Interleaving

/-!
# The rows of a batch (`save/publication.rs`, `port/persistence.rs`)

The port registers at most so many rows in one batch: the objects, the rows of the packs, the inode
values and the signatures together. The values go first and fill batches of their own; a member
closes the batch before it when that has members or packs, so the first member joins whatever the
last batch of values left.

* `publishMembers_rows_iff` — **when every batch fits**: then and only then.
-/

namespace LayerFs

open List hiding get modify

namespace Save

variable {Id Value : Type}

open SaveM

variable {capacities : Capacities} {id : Id} {order rest : List Id} {count : ℕ} (ids : List Id)

/-! ## The rows of a batch -/

/-- `TRANSACTION_ROW_LIMIT`. -/
def transactionRowLimit : ℕ := 8191

def Publication.rowCount (cost : PublishedPack → ℕ × ℕ) (batch : Publication Id Value) : ℕ :=
  batch.objects.length + (batch.packs.map fun pack => (cost pack).1).sum +
    batch.inodeValues.length + batch.signatures.length

def Batching.rows (batching : Batching Id Value) : ℕ :=
  batching.batch.objects.length + batching.packRows + batching.batch.inodeValues.length +
    batching.batch.signatures.length

def Counted (cost : PublishedPack → ℕ × ℕ) (batching : Batching Id Value) : Prop :=
  batching.packRows = (batching.batch.packs.map fun pack => (cost pack).1).sum

def Batching.closed (full : Bool) (batching : Batching Id Value) : Batching Id Value :=
  if full then ⟨.empty, 0, 0, 0, batching.packs⟩ else batching

variable {cost : PublishedPack → ℕ × ℕ} {limit : ℕ} {batching : Batching Id Value}

theorem Counted.rowCount (h : Counted cost batching) :
    batching.batch.rowCount cost = batching.rows := by
  rw [Publication.rowCount, Batching.rows, h]

theorem Counted.closed (h : Counted cost batching) (full : Bool) :
    Counted cost (batching.closed full) := by
  cases full
  · exact h
  · rfl

/-! ### Values -/

/-- How many of so many values are left for the next batch, when they fill batches of `limit`. -/
def lastValues (limit total : ℕ) : ℕ := if total = 0 then 0 else (total - 1) % limit + 1

theorem lastValues_succ (hlimit : 0 < limit) (total : ℕ) :
    lastValues limit (total + 1) =
      if limit < lastValues limit total + 1 then 1 else lastValues limit total + 1 := by
  rw [lastValues, if_neg (Nat.succ_ne_zero total), Nat.add_sub_cancel]
  cases total with
  | zero =>
    rw [lastValues, if_pos rfl, if_neg (by omega), Nat.zero_mod]
  | succ total =>
    rw [lastValues, if_neg (Nat.succ_ne_zero total), Nat.add_sub_cancel]
    have hlt := Nat.mod_lt total hlimit
    split_ifs with hfull
    · have hlast : total % limit + 1 = limit := by omega
      rw [← Nat.mod_add_mod, hlast, Nat.mod_self]
    · rw [← Nat.mod_add_mod, Nat.mod_eq_of_lt (by omega)]

theorem lastValues_le (hlimit : 0 < limit) (total : ℕ) : lastValues limit total ≤ limit := by
  rw [lastValues]
  split_ifs
  · exact Nat.zero_le _
  · exact Nat.mod_lt _ hlimit

/-- A batch in progress of so many values and nothing else. -/
structure ValuesOnly (batching : Batching Id Value) (count : ℕ) : Prop where
  objects : batching.batch.objects = []
  packs : batching.batch.packs = []
  signatures : batching.batch.signatures = []
  packRows : batching.packRows = 0
  placed : batching.packs = []
  values : batching.batch.inodeValues.length = count

theorem ValuesOnly.counted (h : ValuesOnly batching count) : Counted cost batching := by
  rw [Counted, h.packRows, h.packs]
  rfl

theorem ValuesOnly.rows (h : ValuesOnly batching count) : batching.rows = count := by
  rw [Batching.rows, h.objects, h.packRows, h.signatures, h.values, length_nil,
    length_nil]
  omega

def Batching.addValue (row : ℕ × Value) (batching : Batching Id Value) : Batching Id Value :=
  { batching with batch := { batching.batch with
    inodeValues := batching.batch.inodeValues ++ [row] } }

theorem ValuesOnly.add (hlimit : 0 < limit) {total : ℕ}
    (h : ValuesOnly batching (lastValues limit total)) (row : ℕ × Value) :
    ValuesOnly ((batching.closed
      (decide (limit < batching.batch.inodeValues.length + 1))).addValue row)
      (lastValues limit (total + 1)) := by
  rw [lastValues_succ hlimit, h.values, Batching.closed]
  simp only [decide_eq_true_eq]
  split_ifs with hfull
  · exact ⟨rfl, rfl, rfl, rfl, h.placed, rfl⟩
  · refine ⟨h.objects, h.packs, h.signatures, h.packRows, h.placed, ?_⟩
    rw [Batching.addValue, List.length_append, h.values, length_singleton]

/-! ### Members -/

/-- A member joins a batch, with its pack when no batch has it yet. -/
def Batching.addObject (stored : StoredObject Id Value) (sealed : Sealed Id Value)
    (addedPack : Bool) (added : ℕ × ℕ) (batching : Batching Id Value) : Batching Id Value :=
  { batching with
    batch := { batching.batch with
      packs := batching.batch.packs ++ if addedPack then [⟨sealed.info, sealed.body⟩] else []
      objects := batching.batch.objects ++ [stored] }
    packs := if addedPack then batching.packs ++ [sealed.info.packId] else batching.packs
    packRows := batching.packRows + added.1
    canonicalBytes := batching.canonicalBytes + stored.location.canonicalLength
    physicalBytes := batching.physicalBytes + added.2 }

def addedRows (cost : PublishedPack → ℕ × ℕ) (sealed : Sealed Id Value)
    (batching : Batching Id Value) : ℕ :=
  if sealed.info.packId ∈ batching.packs then 0 else (cost ⟨sealed.info, sealed.body⟩).1

variable {stored : StoredObject Id Value} {sealed : Sealed Id Value} {added : ℕ × ℕ}

theorem Batching.rows_addObject (addedPack : Bool) :
    (batching.addObject stored sealed addedPack added).rows = batching.rows + added.1 + 1 := by
  dsimp only [Batching.rows, Batching.addObject]
  rw [List.length_append, length_singleton]
  omega

theorem Counted.addObject (h : Counted cost batching) {addedPack : Bool}
    (hadded : added.1 = if addedPack then (cost ⟨sealed.info, sealed.body⟩).1 else 0) :
    Counted cost (batching.addObject stored sealed addedPack added) := by
  rw [Counted, Batching.addObject, map_append, sum_append, hadded, h]
  cases addedPack <;> rfl

/-- **A batch of members in progress** that fits. -/
structure Filled (cost : PublishedPack → ℕ × ℕ) (limit : ℕ) (batching : Batching Id Value) :
    Prop where
  counted : Counted cost batching
  rows_le : batching.rows ≤ limit
  signatures : batching.batch.signatures = []

theorem Filled.closed (h : Filled cost limit batching) (full : Bool) :
    Filled cost limit (batching.closed full) := by
  refine ⟨h.counted.closed full, ?_, ?_⟩
  · cases full
    · exact h.rows_le
    · exact Nat.zero_le _
  · cases full
    · exact h.signatures
    · rfl

def Batching.addSignature (row : SignatureRow Id) (batching : Batching Id Value) :
    Batching Id Value :=
  { batching with batch := { batching.batch with
    signatures := batching.batch.signatures ++ [row] } }

theorem Batching.rows_addSignature (row : SignatureRow Id) :
    (batching.addSignature row).rows = batching.rows + 1 := by
  dsimp only [Batching.rows, Batching.addSignature]
  rw [List.length_append, length_singleton]
  rfl

/-! ## Calls -/

variable [LinearOrder Id] {encoder : Encoder Id Value}
  {members : SortedMap Id (StoredObject Id Value)}

/-- A call that hands over no batch, or one of at most so many rows. -/
def FitsRows (cost : PublishedPack → ℕ × ℕ) (limit : ℕ) : Call Id Value → Prop
  | .publish batch => batch.rowCount cost ≤ limit
  | _ => True

/-- The provider's cost of a pack is a function of the pack; every other reply is its own. -/
def Provides (cost : PublishedPack → ℕ × ℕ) : (call : Call Id Value) → Reply call → Prop
  | .packCost pack, reply => reply = .ok (cost pack) ∨ ∃ e, reply = .error e
  | .publish _, _ => True
  | .reserve _ _, _ => True
  | .inodeValues _, _ => True
  | .locate _, _ => True

namespace SaveM

variable {α β : Type} {m : SaveM encoder α} {state : State encoder}
variable {call : Call Id Value} {e : StorageError Id} {f : α → SaveM encoder β}
  {post : α → State encoder → Prop}

/-- **Every batch of the step fits**, and `post` holds if it succeeds. -/
def Within (cost : PublishedPack → ℕ × ℕ) (limit : ℕ) (m : SaveM encoder α)
    (state : State encoder) (post : α → State encoder → Prop) : Prop :=
  (m state).Every (FitsRows cost limit) (Provides cost)
    fun result => ∀ a later, result = .ok (a, later) → post a later

theorem Within.mono {post' : α → State encoder → Prop} (h : Within cost limit m state post)
    (hpost : ∀ a later, post a later → post' a later) : Within cost limit m state post' :=
  Session.Every.mono h fun _ hresult a later heq => hpost a later (hresult a later heq)

theorem within_bind_iff {post : β → State encoder → Prop} :
    Within cost limit (m >>= f) state post ↔
      Within cost limit m state fun a later => Within cost limit (f a) later post := by
  refine Session.every_bind_iff.trans
    ⟨fun h => Session.Every.mono h ?_, fun h => Session.Every.mono h ?_⟩
  · rintro _ hresult a later rfl
    exact hresult
  · rintro (e | ⟨a, later⟩) hresult
    · intro b last heq
      cases heq
    · exact hresult a later rfl

theorem within_pure_iff {a : α} :
    Within cost limit (pure a : SaveM encoder α) state post ↔ post a state :=
  ⟨fun h => h a state rfl, fun h _ _ heq => by cases heq; exact h⟩

theorem Within.fail :
    Within cost limit (fail e : SaveM encoder α) state post := fun _ _ heq => by cases heq

theorem Within.lift {x : StorageResult Id α} (h : ∀ a, x = .ok a → post a state) :
    Within cost limit (lift x : SaveM encoder α) state post := by
  intro a later heq
  cases x with
  | error e => cases heq
  | ok value =>
    cases heq
    exact h _ rfl

theorem Within.check {condition : Bool} {post : Unit → State encoder → Prop}
    (h : condition = true → post () state) :
    Within cost limit (check condition e : SaveM encoder Unit) state post :=
  Within.lift fun _ heq => h (ensure_eq_ok.mp heq)

theorem Within.get {post : State encoder → State encoder → Prop} (h : post state state) :
    Within cost limit (get : SaveM encoder (State encoder)) state post := by
  intro a later heq
  cases heq
  exact h

theorem Within.modify {f : State encoder → State encoder} {post : Unit → State encoder → Prop}
    (h : post () (f state)) : Within cost limit (modify f : SaveM encoder Unit) state post := by
  intro a later heq
  cases heq
  exact h

theorem Within.answer {reply : Except PersistenceError α} (h : ∀ a, reply = .ok a → post a state) :
    Within cost limit (answer reply : SaveM encoder α) state post := by
  refine Within.lift fun a heq => ?_
  cases reply with
  | error e => cases heq
  | ok value =>
    cases heq
    exact h _ rfl

theorem Within.ask (hfits : FitsRows cost limit call) {post : Reply call → State encoder → Prop}
    (h : ∀ reply, Provides cost call reply → post reply state) :
    Within cost limit (ask call : SaveM encoder (Reply call)) state post := by
  refine ⟨hfits, fun reply hreply a later heq => ?_⟩
  cases heq
  exact h reply hreply

/-! ## Steps that publish nothing -/

def Quiet (m : SaveM encoder α) : Prop :=
  ∀ cost limit state, Within cost limit m state fun _ later => later.packer = state.packer

theorem Quiet.within (h : Quiet m) :
    Within cost limit m state fun _ later => later.packer = state.packer := h cost limit state

theorem Quiet.bind (hm : Quiet m) (hf : ∀ a, Quiet (f a)) :
    Quiet (m >>= f) := fun cost limit state =>
  within_bind_iff.mpr <| (hm cost limit state).mono fun a later hlater =>
    (hf a cost limit later).mono fun _ _ hlast => hlast.trans hlater

theorem Quiet.pure (a : α) : Quiet (Pure.pure a : SaveM encoder α) := fun _ _ _ =>
  within_pure_iff.mpr rfl

theorem Quiet.fail (e : StorageError Id) : Quiet (fail e : SaveM encoder α) := fun _ _ _ =>
  Within.fail

theorem Quiet.lift (x : StorageResult Id α) : Quiet (lift x : SaveM encoder α) := fun _ _ _ =>
  Within.lift fun _ _ => rfl

theorem Quiet.check (condition : Bool) (e : StorageError Id) :
    Quiet (check condition e : SaveM encoder Unit) := Quiet.lift _

theorem Quiet.get : Quiet (get : SaveM encoder (State encoder)) := fun _ _ _ => Within.get rfl

theorem Quiet.modify {f : State encoder → State encoder} (h : ∀ state, (f state).packer =
    state.packer) : Quiet (modify f : SaveM encoder Unit) := fun _ _ state =>
  Within.modify (h state)

theorem Quiet.answer (reply : Except PersistenceError α) :
    Quiet (answer reply : SaveM encoder α) := Quiet.lift _

theorem Quiet.ask (h : ∀ batch, call ≠ .publish batch) :
    Quiet (ask call : SaveM encoder (Reply call)) := by
  intro cost limit state
  refine Within.ask ?_ fun _ _ => rfl
  cases call with
  | publish batch => exact absurd rfl (h batch)
  | _ => trivial

end SaveM

theorem invalidate_quiet : Quiet (invalidate ids : SaveM encoder Unit) :=
  Quiet.modify fun _ => rfl

theorem locatePage_quiet (page : List Id) : Quiet (locatePage page : SaveM encoder _) :=
  (Quiet.ask fun _ h => by cases h).bind fun reply => (Quiet.answer reply).bind fun _ =>
    Quiet.bind (Quiet.modify fun _ => rfl) fun _ => .pure _

theorem locatePages_quiet (pages : List (List Id)) :
    Quiet (locatePages pages : SaveM encoder _) := by
  induction pages with
  | nil => exact .pure ()
  | cons page rest ih => exact (locatePage_quiet page).bind fun _ => ih

theorem locate_quiet : Quiet (locate ids : SaveM encoder Unit) :=
  Quiet.get.bind fun _ => locatePages_quiet _

theorem fetchLocation_quiet (id : Id) : Quiet (fetchLocation id : SaveM encoder _) := by
  refine Quiet.get.bind fun state => ?_
  split_ifs
  · exact .pure _
  · exact (locatePage_quiet _).bind fun _ => .pure _

theorem viewLocation_quiet (id : Id) : Quiet (viewLocation id : SaveM encoder _) := by
  refine Quiet.get.bind fun state => ?_
  cases state.packer.location id with
  | some row => exact .pure _
  | none => exact fetchLocation_quiet id

theorem resolveAll_quiet : Quiet (resolveAll ids : SaveM encoder _) := by
  induction ids with
  | nil => exact .pure _
  | cons id rest ih =>
    have hresolve : Quiet (resolve id : SaveM encoder _) := by
      refine (viewLocation_quiet id).bind fun row => ?_
      cases row with
      | some row => exact .pure _
      | none => exact .fail _
    exact hresolve.bind fun _ => ih.bind fun _ => .pure _

theorem publishedRows_quiet : Quiet (publishedRows ids : SaveM encoder _) := by
  induction ids with
  | nil => exact .pure _
  | cons id rest ih =>
    refine (fetchLocation_quiet id).bind fun row => ?_
    cases row with
    | some row => exact ih.bind fun _ => .pure _
    | none => exact .fail _

theorem readPublished_quiet (capacities : Capacities) (ids : List Id) :
    Quiet (readPublished capacities ids : SaveM encoder _) :=
  (Quiet.check _ _).bind fun _ => Quiet.bind (Quiet.modify fun _ => rfl) fun _ =>
    (locate_quiet ids).bind fun _ => (publishedRows_quiet ids).bind fun _ =>
      (Quiet.check _ _).bind fun _ => .pure _

theorem checkWinners_quiet (members : SortedMap Id (StoredObject Id Value))
    (rows : List (Id × List UInt8 × List UInt8)) :
    Quiet (checkWinners members rows : SaveM encoder Unit) := by
  induction rows with
  | nil => exact .pure _
  | cons row rest ih =>
    refine (fetchLocation_quiet row.1).bind fun winner => ?_
    cases winner with
    | none => exact .fail _
    | some winner => exact (Quiet.check _ _).bind fun _ => ih

theorem compareLost_quiet (capacities : Capacities) (members : SortedMap Id (StoredObject Id Value))
    (lost : List Id) : Quiet (compareLost capacities members lost : SaveM encoder Unit) := by
  rw [compareLost]
  split_ifs
  · exact .pure _
  · exact Quiet.bind (Quiet.modify fun _ => rfl) fun _ => (resolveAll_quiet _).bind fun _ =>
      (invalidate_quiet _).bind fun _ => (readPublished_quiet capacities _).bind fun _ =>
        checkWinners_quiet members _

theorem acknowledge_within {batch : Publication Id Value} (hfits : batch.rowCount cost ≤ limit)
    (state : State encoder) : Within cost limit (acknowledge capacities batch members) state
      fun _ later => later.packer = state.packer := by
  have hcall : FitsRows cost limit (.publish batch : Call Id Value) := hfits
  refine within_bind_iff.mpr (Within.ask hcall fun reply _ => Quiet.within ?_)
  exact Quiet.bind (Quiet.answer reply) fun _ => Quiet.bind (Quiet.lift _) fun _ =>
    Quiet.bind (compareLost_quiet capacities members _) fun _ =>
      Quiet.bind (invalidate_quiet _) fun _ => Quiet.modify fun _ => rfl

/-- **Closing a batch that fits.** -/
theorem closeBatch_within {full : Bool} (hcounted : Counted cost batching)
    (hrows : full = true → batching.rows ≤ limit) (state : State encoder) :
    Within cost limit (closeBatch capacities members full batching) state
      fun next later => later.packer = state.packer ∧ next = batching.closed full := by
  rw [closeBatch]
  cases full with
  | false => exact within_pure_iff.mpr ⟨rfl, rfl⟩
  | true =>
    rw [if_pos rfl]
    refine within_bind_iff.mpr ((acknowledge_within (hcounted.rowCount ▸ hrows rfl) state).mono ?_)
    exact fun _ later hlater => within_pure_iff.mpr ⟨hlater, rfl⟩

/-- **The values** fill batches and leave the last ones. -/
theorem batchValues_within (hlimit : 0 < capacities.transactionRows) {rows : List (ℕ × Value)} :
    ∀ {batching : Batching Id Value} {total : ℕ} (state : State encoder),
      ValuesOnly batching (lastValues capacities.transactionRows total) →
      Within cost capacities.transactionRows (batchValues capacities members rows batching) state
        fun next later => later.packer = state.packer ∧
          ValuesOnly next (lastValues capacities.transactionRows (total + rows.length)) := by
  induction rows with
  | nil => exact fun state h => within_pure_iff.mpr ⟨rfl, h⟩
  | cons row rest ih =>
    intro batching total state h
    have hfits : batching.rows ≤ capacities.transactionRows := by
      rw [h.rows]
      exact lastValues_le hlimit total
    refine within_bind_iff.mpr ((closeBatch_within h.counted (fun _ => hfits) state).mono ?_)
    rintro next later ⟨hpacker, rfl⟩
    refine (ih later (h.add hlimit row)).mono ?_
    rintro last final ⟨hlast, hvalues⟩
    rw [length_cons, ← Nat.add_assoc, Nat.add_right_comm]
    exact ⟨hlast.trans hpacker, hvalues⟩

theorem addedCost_within (sealed : Sealed Id Value) (batching : Batching Id Value)
    (state : State encoder) : Within cost limit (addedCost sealed batching) state
      fun added later => later = state ∧ added.1 = addedRows cost sealed batching ∧
        added.1 ≤ groupCountLimit + 1 := by
  rw [addedCost, addedRows]
  split_ifs
  · exact within_pure_iff.mpr ⟨rfl, rfl, Nat.zero_le _⟩
  · have hcall : FitsRows cost limit (.packCost ⟨sealed.info, sealed.body⟩ : Call Id Value) :=
      trivial
    refine within_bind_iff.mpr (Within.ask hcall fun reply hreply => within_bind_iff.mpr
      (Within.answer fun found hfound => within_bind_iff.mpr (Within.check fun hbounds =>
        within_pure_iff.mpr ⟨rfl, ?_⟩)))
    rcases hreply with rfl | ⟨e, rfl⟩
    · cases hfound
      simp only [Bool.and_eq_true, decide_eq_true_eq] at hbounds
      exact ⟨rfl, hbounds.1.1.2⟩
    · cases hfound

/-- **A member joins** a batch it fits in. -/
theorem batchObject_within (hlimit : groupCountLimit + 2 ≤ capacities.transactionRows)
    (h : Filled cost capacities.transactionRows batching) (state : State encoder)
    (hroom : batching.batch.objects = [] → ∀ sealed,
      sealedOf state.packer stored.location.packId = .ok sealed →
        batching.rows + addedRows cost sealed batching + 1 ≤ capacities.transactionRows) :
    Within cost capacities.transactionRows (batchObject capacities members stored batching) state
      fun next later => later.packer = state.packer ∧
        Filled cost capacities.transactionRows next ∧ next.batch.objects ≠ [] := by
  refine within_bind_iff.mpr (Within.get (within_bind_iff.mpr
    (Within.lift fun sealed hsealed => ?_)))
  refine within_bind_iff.mpr ((addedCost_within sealed batching state).mono ?_)
  rintro added _ ⟨rfl, hadded, hmost⟩
  refine within_bind_iff.mpr ((closeBatch_within h.counted (fun _ => h.rows_le) _).mono ?_)
  rintro next later ⟨hpacker, rfl⟩
  have hjoins : ∀ full, (full = true ∨ batching.rows + added.1 + 1 ≤ capacities.transactionRows) →
      Filled cost capacities.transactionRows ((batching.closed full).addObject stored sealed
        (decide (sealed.info.packId ∉ batching.packs)) added) := by
    intro full hfull
    refine ⟨(h.counted.closed full).addObject ?_, ?_, (h.closed full).signatures⟩
    · rw [hadded, addedRows]
      by_cases hplaced : sealed.info.packId ∈ batching.packs
      · rw [if_pos hplaced, decide_eq_false (not_not.mpr hplaced)]
        rfl
      · rw [if_neg hplaced, decide_eq_true hplaced]
        rfl
    · rw [Batching.rows_addObject]
      rcases hfull with rfl | hrows
      · have hempty : (batching.closed true).rows = 0 := rfl
        omega
      · cases full
        · exact hrows
        · have hempty : (batching.closed true).rows = 0 := rfl
          omega
  refine within_pure_iff.mpr ⟨hpacker, hjoins _ ?_,
    append_ne_nil_of_right_ne_nil _ (cons_ne_nil _ _)⟩
  by_cases hobjects : batching.batch.objects = []
  · exact .inr (hadded ▸ hroom hobjects sealed hsealed)
  · refine or_iff_not_imp_left.mpr fun hopen => ?_
    have hsome : (!batching.batch.objects.isEmpty || !batching.batch.packs.isEmpty) = true := by
      rw [isEmpty_eq_false_iff.mpr hobjects]
      rfl
    rw [hsome, Bool.true_and, Bool.not_eq_true, Bool.or_eq_false_iff,
      decide_eq_false_iff_not (p := capacities.transactionRows < _), not_lt] at hopen
    have hrows := hopen.2
    rw [Batching.rows, h.signatures, length_nil]
    omega

/-- **The members** join batches, the first in the batch of the last values. -/
theorem batchObjects_within (hlimit : groupCountLimit + 2 ≤ capacities.transactionRows) :
    ∀ {batching : Batching Id Value} (state : State encoder),
      Filled cost capacities.transactionRows batching →
      (batching.batch.objects = [] → ∀ id ∈ order.head?, ∀ stored sealed,
        members.get? id = some stored →
        sealedOf state.packer stored.location.packId = .ok sealed →
          batching.rows + addedRows cost sealed batching + 1 ≤ capacities.transactionRows) →
      Within cost capacities.transactionRows (batchObjects capacities members order batching) state
        fun next later => later.packer = state.packer ∧
          Filled cost capacities.transactionRows next := by
  induction order with
  | nil => exact fun state h _ => within_pure_iff.mpr ⟨rfl, h⟩
  | cons id rest ih =>
    intro batching state h hroom
    rw [batchObjects]
    cases hstored : members.get? id with
    | none => exact Within.fail
    | some stored =>
      refine within_bind_iff.mpr ((batchObject_within hlimit h state fun hempty sealed hsealed =>
        hroom hempty id rfl stored sealed hstored hsealed).mono ?_)
      rintro next later ⟨hpacker, hnext, hobjects⟩
      refine (ih later hnext fun hempty => absurd hempty hobjects).mono ?_
      exact fun _ _ hlast => ⟨hlast.1.trans hpacker, hlast.2⟩

/-- **The signatures** join batches that have room. -/
theorem batchSignatures_within (hlimit : 0 < capacities.transactionRows)
    {rows : List (SignatureRow Id)} :
    ∀ {batching : Batching Id Value} (state : State encoder), Counted cost batching →
      batching.rows ≤ capacities.transactionRows →
      Within cost capacities.transactionRows (batchSignatures capacities members rows batching)
        state fun next _ => Counted cost next ∧ next.rows ≤ capacities.transactionRows := by
  induction rows with
  | nil => exact fun state hcounted hrows => within_pure_iff.mpr ⟨hcounted, hrows⟩
  | cons row rest ih =>
    intro batching state hcounted hrows
    refine within_bind_iff.mpr (Within.get ?_)
    split_ifs
    · exact ih state hcounted hrows
    · have hknown : Quiet (signatureKnown members row : SaveM encoder Bool) := by
        rw [signatureKnown]
        split_ifs
        · exact .pure _
        · exact (fetchLocation_quiet _).bind fun _ => .pure _
      refine within_bind_iff.mpr (hknown.within.mono fun known next _ =>
        within_bind_iff.mpr (Within.check fun _ => within_bind_iff.mpr
          ((closeBatch_within hcounted (fun _ => hrows) next).mono ?_)))
      rintro _ later ⟨-, rfl⟩
      refine ih later (hcounted.closed _) ?_
      change ((batching.closed _).addSignature row).rows ≤ _
      rw [Batching.rows_addSignature]
      by_cases hfull : capacities.transactionRows ≤ batching.rows
      · rw [Batching.rows] at hfull
        rw [decide_eq_true hfull]
        exact hlimit
      · rw [Batching.rows] at hfull
        rw [decide_eq_false hfull]
        exact Nat.lt_of_not_le hfull

/-- **Every batch fits** when the first member fits behind the last values. -/
theorem publishMembers_within (hlimit : groupCountLimit + 2 ≤ capacities.transactionRows)
    (state : State encoder)
    (hroom : ∀ id ∈ order.head?, ∀ stored sealed, members.get? id = some stored →
      sealedOf state.packer stored.location.packId = .ok sealed →
        lastValues capacities.transactionRows state.values.entries.length +
          (cost ⟨sealed.info, sealed.body⟩).1 + 1 ≤ capacities.transactionRows) :
    Within cost capacities.transactionRows (publishMembers capacities members order) state
      fun _ _ => True := by
  have hpos : 0 < capacities.transactionRows := by omega
  have hempty : ValuesOnly (⟨.empty, 0, 0, 0, []⟩ : Batching Id Value)
      (lastValues capacities.transactionRows 0) := ⟨rfl, rfl, rfl, rfl, rfl, rfl⟩
  refine within_bind_iff.mpr (Within.get (within_bind_iff.mpr (Within.modify ?_)))
  refine within_bind_iff.mpr ((batchValues_within hpos _ hempty).mono ?_)
  rintro values afterValues ⟨hpacker, hvalues⟩
  rw [Nat.zero_add] at hvalues
  have hfilled : Filled cost capacities.transactionRows values :=
    ⟨hvalues.counted, hvalues.rows.trans_le (lastValues_le hpos _), hvalues.signatures⟩
  refine within_bind_iff.mpr ((batchObjects_within hlimit afterValues hfilled ?_).mono ?_)
  · intro _ id hid stored sealed hstored hsealed
    rw [hpacker] at hsealed
    rw [hvalues.rows, addedRows, hvalues.placed, if_neg not_mem_nil]
    exact hroom id hid stored sealed hstored hsealed
  · rintro objects afterObjects ⟨-, hobjects⟩
    refine within_bind_iff.mpr (Within.get (within_bind_iff.mpr
      ((batchSignatures_within hpos _ hobjects.counted hobjects.rows_le).mono ?_)))
    rintro last final ⟨hcounted, hrows⟩
    have hlast : Counted cost { last with
        batch := { last.batch with releaseOrdinals := unusedOrdinals final } } := hcounted
    refine within_bind_iff.mpr (Within.get (within_bind_iff.mpr
      ((closeBatch_within hlast (fun _ => hrows) _).mono ?_)))
    exact fun _ _ _ => Within.modify trivial

/-! ## A batch that does not fit -/

namespace SaveM

variable {α β : Type} {m : SaveM encoder α} {state later last : State encoder} {a : α}
variable {f : α → SaveM encoder β}

def Ends (cost : PublishedPack → ℕ × ℕ) (m : SaveM encoder α) (state : State encoder) (a : α)
    (later : State encoder) : Prop :=
  Session.MayEnd (Provides cost) (m state) (.ok (a, later))

theorem Ends.bind {b : β} (h : Ends cost m state a later) (hf : Ends cost (f a) later b last) :
    Ends cost (m >>= f) state b last :=
  Session.MayEnd.bind h hf

theorem Ends.pure (a : α) : Ends cost (Pure.pure a : SaveM encoder α) state a state := .done _

theorem Ends.get : Ends cost (get : SaveM encoder (State encoder)) state state state := .done _

theorem Ends.modify (f : State encoder → State encoder) :
    Ends cost (modify f : SaveM encoder Unit) state () (f state) := .done _

theorem Ends.lift {x : StorageResult Id α} (h : x = .ok a) :
    Ends cost (lift x : SaveM encoder α) state a state := by
  rw [h]
  exact .done _

theorem Ends.check {condition : Bool} (h : condition = true) (e : StorageError Id) :
    Ends cost (check condition e : SaveM encoder Unit) state () state :=
  Ends.lift (ensure_eq_ok.mpr h)

theorem Ends.ask {call : Call Id Value} {reply : Reply call} (h : Provides cost call reply) :
    Ends cost (ask call : SaveM encoder (Reply call)) state reply state :=
  Session.MayEnd.ask h (.done _)

theorem Ends.answer (a : α) :
    Ends cost (answer (.ok a) : SaveM encoder α) state a state := .done _

theorem Within.of_ends {post : β → State encoder → Prop}
    (h : Within cost limit (m >>= f) state post) (hends : Ends cost m state a later) :
    Within cost limit (f a) later post :=
  Session.Every.of_mayEnd (within_bind_iff.mp h) hends a later rfl

end SaveM

/-- A batch is acknowledged without losses. -/
structure Unchanged (state later : State encoder) : Prop where
  packer : later.packer = state.packer
  signatures : later.signatures = state.signatures
  absent : ∀ id ∈ later.absent, id ∈ state.absent

omit [LinearOrder Id] in
theorem Unchanged.refl (state : State encoder) : Unchanged state state :=
  ⟨rfl, rfl, fun _ h => h⟩

omit [LinearOrder Id] in
theorem Unchanged.trans {state later last : State encoder} (h : Unchanged state later)
    (h' : Unchanged later last) : Unchanged state last :=
  ⟨h'.packer.trans h.packer, h'.signatures.trans h.signatures,
    fun id hid => h.absent id (h'.absent id hid)⟩

variable (cost) in
theorem closeBatch_ends (capacities : Capacities)
    (members : SortedMap Id (StoredObject Id Value)) (full : Bool)
    (hsignatures : batching.batch.signatures = []) (state : State encoder) :
    ∃ later, Ends cost (closeBatch capacities members full batching) state
      (batching.closed full) later ∧ Unchanged state later := by
  rw [closeBatch]
  cases full with
  | false => exact ⟨state, .pure _, .refl state⟩
  | true =>
    have hreply : Provides cost (.publish batching.batch : Call Id Value) (.ok []) := trivial
    refine ⟨_, Ends.bind (Ends.bind (Ends.ask hreply) <| Ends.bind (Ends.answer []) <|
      Ends.bind (Ends.lift rfl) <| Ends.bind (Ends.pure ()) <| Ends.bind (Ends.modify _) <|
      Ends.modify _) (Ends.pure _), rfl, ?_, fun id hid => (mem_filter.mp hid).1⟩
    rw [hsignatures]
    rfl

variable (cost) in
theorem batchValues_ends (hlimit : 0 < capacities.transactionRows)
    (members : SortedMap Id (StoredObject Id Value)) (rows : List (ℕ × Value)) :
    ∀ {batching : Batching Id Value} {total : ℕ} (state : State encoder),
      ValuesOnly batching (lastValues capacities.transactionRows total) →
      ∃ next later, Ends cost (batchValues capacities members rows batching) state next later ∧
        ValuesOnly next (lastValues capacities.transactionRows (total + rows.length)) ∧
        Unchanged state later := by
  induction rows with
  | nil => exact fun state h => ⟨_, state, .pure _, h, .refl state⟩
  | cons row rest ih =>
    intro batching total state h
    obtain ⟨later, hclose, hlater⟩ := closeBatch_ends cost capacities members
      (decide (capacities.transactionRows < batching.batch.inodeValues.length + 1)) h.signatures
      state
    obtain ⟨next, last, hrest, hvalues, hlast⟩ := ih later (h.add hlimit row)
    refine ⟨next, last, hclose.bind hrest, ?_, hlater.trans hlast⟩
    rw [length_cons, ← Nat.add_assoc, Nat.add_right_comm]
    exact hvalues

def Declared (cost : PublishedPack → ℕ × ℕ) (pack : PublishedPack) : Prop :=
  (cost pack).1 ≠ 0 ∧ (cost pack).1 ≤ groupCountLimit + 1 ∧ pack.body.length ≤ (cost pack).2 ∧
    (cost pack).2 ≤ pack.body.length + 56 + 32 * groupCountLimit

/-- **A prepared publication**: every member is in a sealed pack, every pack has a declared cost,
and a signature names a member, an object that is still pending, or one not known to be absent. -/
structure Prepared (cost : PublishedPack → ℕ × ℕ) (members : SortedMap Id (StoredObject Id Value))
    (order : List Id) (state : State encoder) : Prop where
  sealed : ∀ id ∈ order, ∃ stored, members.get? id = some stored ∧
    ∃ sealed, sealedOf state.packer stored.location.packId = .ok sealed
  cost : ∀ sealed ∈ state.packer.ready, Declared cost ⟨sealed.info, sealed.body⟩
  signatures : ∀ row ∈ state.signatures.entries.map Prod.snd,
    (members.get? row.objectId).isSome ∨ state.packer.pending row.objectId = true ∨
      row.objectId ∉ state.absent

omit [LinearOrder Id] in
theorem mem_ready_of_sealedOf {packer : Packer Value encoder.framing} {packId : ℤ}
    (h : sealedOf packer packId = .ok sealed) : sealed ∈ packer.ready := by
  rw [sealedOf] at h
  cases hfind : packer.ready.find? fun sealed => sealed.info.packId == packId with
  | none =>
    rw [hfind] at h
    cases h
  | some found =>
    rw [hfind] at h
    cases h
    exact mem_of_find?_eq_some hfind

theorem Prepared.later {state later : State encoder} (h : Prepared cost members order state)
    (hlater : Unchanged state later) : Prepared cost members order later := by
  refine ⟨?_, ?_, ?_⟩
  · rw [hlater.packer]
    exact h.sealed
  · rw [hlater.packer]
    exact h.cost
  · rw [hlater.packer, hlater.signatures]
    intro row hrow
    exact (h.signatures row hrow).imp_right fun h => h.imp_right fun habsent hid =>
      habsent (hlater.absent _ hid)

theorem addedCost_ends (hdeclared : Declared cost ⟨sealed.info, sealed.body⟩)
    (batching : Batching Id Value) (state : State encoder) :
    ∃ added, Ends cost (addedCost sealed batching) state added state ∧
      added.1 = addedRows cost sealed batching := by
  rw [addedCost, addedRows]
  split_ifs
  · exact ⟨_, .pure _, rfl⟩
  · have hreply : Provides cost (.packCost ⟨sealed.info, sealed.body⟩ : Call Id Value)
        (.ok (cost ⟨sealed.info, sealed.body⟩)) := .inl rfl
    refine ⟨_, Ends.bind (Ends.ask hreply) <| Ends.bind (Ends.answer _) <|
      Ends.bind (Ends.check ?_ _) <| Ends.pure _, rfl⟩
    simp only [Bool.and_eq_true, decide_eq_true_eq]
    exact ⟨⟨⟨hdeclared.1, hdeclared.2.1⟩, hdeclared.2.2.1⟩, hdeclared.2.2.2⟩

theorem batchObject_ends (capacities : Capacities) (members : SortedMap Id (StoredObject Id Value))
    (h : ValuesOnly batching count) (state : State encoder)
    (hsealed : sealedOf state.packer stored.location.packId = .ok sealed)
    (hdeclared : Declared cost ⟨sealed.info, sealed.body⟩) :
    ∃ next, Ends cost (batchObject capacities members stored batching) state next state ∧
      Counted cost next ∧ next.batch.objects ≠ [] ∧ next.batch.signatures = [] ∧
      next.rows = count + (cost ⟨sealed.info, sealed.body⟩).1 + 1 := by
  obtain ⟨added, hcost, hadded⟩ := addedCost_ends hdeclared batching state
  rw [addedRows, h.placed, if_neg not_mem_nil] at hadded
  have hclose : Ends cost (closeBatch capacities members
      ((!batching.batch.objects.isEmpty || !batching.batch.packs.isEmpty)
        && (decide (capacities.transactionBytes <
            batching.canonicalBytes + stored.location.canonicalLength)
          || decide (capacities.transactionPhysicalBytes < batching.physicalBytes + added.2)
          || decide (capacities.transactionRows < batching.batch.objects.length +
            batching.packRows + batching.batch.inodeValues.length + added.1 + 1))) batching)
      state batching state := by
    rw [h.objects, h.packs]
    exact Ends.pure _
  refine ⟨batching.addObject stored sealed (decide (sealed.info.packId ∉ batching.packs)) added,
    Ends.get.bind <| (Ends.lift hsealed).bind <| hcost.bind <| hclose.bind <| Ends.pure _,
    h.counted.addObject ?_, append_ne_nil_of_right_ne_nil _ (cons_ne_nil _ _),
    h.signatures, ?_⟩
  · rw [hadded, h.placed, decide_eq_true not_mem_nil]
    rfl
  · rw [Batching.rows_addObject, h.rows, hadded]

theorem rows_le_of_within {full : Bool} {state : State encoder}
    {post : Batching Id Value → State encoder → Prop} (hcounted : Counted cost batching)
    (hfull : full = true)
    (h : Within cost limit (closeBatch capacities members full batching) state post) :
    batching.rows ≤ limit := by
  rw [closeBatch, hfull, if_pos rfl] at h
  have hfits : FitsRows cost limit (.publish batching.batch : Call Id Value) :=
    (within_bind_iff.mp (within_bind_iff.mp h)).1
  exact hcounted.rowCount ▸ hfits

/-- A batch in progress that is over the bound already. -/
structure Overfull (cost : PublishedPack → ℕ × ℕ) (limit : ℕ) (batching : Batching Id Value) :
    Prop where
  counted : Counted cost batching
  objects : batching.batch.objects ≠ []
  signatures : batching.batch.signatures = []
  rows : limit < batching.rows

theorem Overfull.not_within_object {state : State encoder}
    {post : Batching Id Value → State encoder → Prop}
    (h : Overfull cost capacities.transactionRows batching)
    (hsealed : sealedOf state.packer stored.location.packId = .ok sealed)
    (hdeclared : Declared cost ⟨sealed.info, sealed.body⟩) :
    ¬ Within cost capacities.transactionRows (batchObject capacities members stored batching) state
      post := by
  intro hwithin
  obtain ⟨added, hcost, -⟩ := addedCost_ends hdeclared batching state
  rw [batchObject] at hwithin
  have hgot := Within.of_ends hwithin Ends.get
  have hlocated := Within.of_ends hgot (Ends.lift hsealed)
  have hclose := Within.of_ends hlocated hcost
  refine absurd (rows_le_of_within h.counted ?_ (within_bind_iff.mp hclose))
    (Nat.not_le.mpr h.rows)
  have hrows := h.rows
  rw [Batching.rows, h.signatures, length_nil] at hrows
  rw [isEmpty_eq_false_iff.mpr h.objects]
  simp only [Bool.not_false, Bool.true_or, Bool.true_and, Bool.or_eq_true, decide_eq_true_eq]
  exact .inr (by omega)

variable (cost) in
theorem fetchLocation_ends (stored : StoredObject Id Value) {state : State encoder}
    (hid : id ∉ state.absent) :
    ∃ row later, Ends cost (fetchLocation id) state (some row) later := by
  let row : StoredObject Id Value :=
    { stored with member :=
      { stored.member with object := { stored.member.object with id := id } } }
  have hreply : Provides cost (.locate [id] : Call Id Value) (.ok [row]) := trivial
  have hfound : [row].find? (fun row => row.id == id) = some row :=
    find?_cons_of_pos (beq_self_eq_true id)
  have hpage : ∃ later, Ends cost (locatePage [id]) state [row] later :=
    ⟨_, Ends.bind (Ends.ask hreply) <| Ends.bind (Ends.answer [row]) <|
      Ends.bind (Ends.modify _) <| Ends.pure _⟩
  obtain ⟨later, hpage⟩ := hpage
  refine ⟨row, later, Ends.get.bind ?_⟩
  rw [if_neg hid, ← hfound]
  exact hpage.bind (Ends.pure _)

variable (cost) in
theorem signatureKnown_ends {row : SignatureRow Id} {state : State encoder}
    (stored : StoredObject Id Value)
    (hknown : (members.get? row.objectId).isSome ∨ row.objectId ∉ state.absent) :
    ∃ later, Ends cost (signatureKnown members row) state true later := by
  rw [signatureKnown]
  split_ifs with hmember
  · exact ⟨state, .pure _⟩
  · obtain ⟨found, later, hfound⟩ := fetchLocation_ends cost stored
      (hknown.resolve_left hmember)
    exact ⟨later, hfound.bind (Ends.pure _)⟩

theorem Overfull.signatures_ends {state : State encoder}
    {post : Batching Id Value → State encoder → Prop}
    (h : Overfull cost capacities.transactionRows batching) {rows : List (SignatureRow Id)}
    (hknown : ∀ row ∈ rows, (members.get? row.objectId).isSome ∨
      state.packer.pending row.objectId = true ∨ row.objectId ∉ state.absent)
    (hwithin : Within cost capacities.transactionRows
      (batchSignatures capacities members rows batching) state post) :
    Ends cost (batchSignatures capacities members rows batching) state batching state := by
  induction rows with
  | nil => exact .pure _
  | cons row rest ih =>
    have hrest := fun row hrow => hknown row (mem_cons_of_mem _ hrow)
    have hafter := Within.of_ends hwithin Ends.get
    refine Ends.get.bind ?_
    split_ifs at hafter ⊢ with hskip
    · exact ih hrest hafter
    · obtain ⟨stored, _, -⟩ := List.exists_cons_of_ne_nil h.objects
      have hrow : (members.get? row.objectId).isSome ∨ row.objectId ∉ state.absent := by
        rcases hknown row List.mem_cons_self with hmember | hpending | habsent
        · exact .inl hmember
        · rw [hpending, Bool.and_true, Option.isNone_iff_eq_none] at hskip
          exact .inl (Option.isSome_iff_ne_none.mpr hskip)
        · exact .inr habsent
      obtain ⟨later, hknows⟩ := signatureKnown_ends cost stored hrow
      have hchecked := Within.of_ends hafter hknows
      have hclose := Within.of_ends hchecked (Ends.check rfl _)
      refine absurd (rows_le_of_within h.counted ?_ (within_bind_iff.mp hclose))
        (Nat.not_le.mpr h.rows)
      rw [decide_eq_true_eq]
      exact h.rows.le

theorem Overfull.not_within_objects {state : State encoder}
    {post : Batching Id Value → State encoder → Prop}
    (h : Overfull cost capacities.transactionRows batching)
    (hprepared : Prepared cost members (id :: rest) state) :
    ¬ Within cost capacities.transactionRows (batchObjects capacities members (id :: rest) batching)
      state post := by
  intro hwithin
  obtain ⟨stored, hstored, sealed, hsealed⟩ := hprepared.sealed id List.mem_cons_self
  rw [batchObjects, hstored] at hwithin
  exact h.not_within_object hsealed (hprepared.cost sealed (mem_ready_of_sealedOf hsealed))
    (within_bind_iff.mp hwithin)

/-- **The first member fits** behind the last values when every batch does. -/
theorem room_of_publishMembers (hlimit : 0 < capacities.transactionRows) {state : State encoder}
    (hprepared : Prepared cost members (id :: rest) state)
    (hwithin : Within cost capacities.transactionRows
      (publishMembers capacities members (id :: rest)) state fun _ _ => True)
    (hstored : members.get? id = some stored)
    (hsealed : sealedOf state.packer stored.location.packId = .ok sealed) :
    lastValues capacities.transactionRows state.values.entries.length +
      (cost ⟨sealed.info, sealed.body⟩).1 + 1 ≤ capacities.transactionRows := by
  have hempty : ValuesOnly (⟨.empty, 0, 0, 0, []⟩ : Batching Id Value)
      (lastValues capacities.transactionRows 0) := ⟨rfl, rfl, rfl, rfl, rfl, rfl⟩
  have hstart : Unchanged state { state with values := .empty } := ⟨rfl, rfl, fun _ h => h⟩
  obtain ⟨values, later, hvalues, honly, hlater⟩ := batchValues_ends cost hlimit members
    state.values.entries { state with values := .empty } hempty
  rw [Nat.zero_add] at honly
  have hafter := hprepared.later (hstart.trans hlater)
  rw [← (hstart.trans hlater).packer] at hsealed
  obtain ⟨next, hjoins, hcounted, hobjects, hsignatures, hrows⟩ :=
    batchObject_ends capacities members honly later hsealed
      (hafter.cost sealed (mem_ready_of_sealedOf hsealed))
  rw [← hrows]
  by_contra hover
  have hfull : Overfull cost capacities.transactionRows next :=
    ⟨hcounted, hobjects, hsignatures, Nat.lt_of_not_le hover⟩
  rw [publishMembers] at hwithin
  have hgot := Within.of_ends hwithin Ends.get
  have hmodified := Within.of_ends hgot (Ends.modify _)
  have hbatched := Within.of_ends hmodified hvalues
  cases rest with
  | cons other rest =>
    have hloop := within_bind_iff.mp hbatched
    rw [batchObjects, hstored] at hloop
    refine hfull.not_within_objects ⟨fun id hid => hafter.sealed id (mem_cons_of_mem _ hid),
      hafter.cost, hafter.signatures⟩ (Within.of_ends hloop hjoins)
  | nil =>
    have hone : Ends cost (batchObjects capacities members [id] values) later next later := by
      rw [batchObjects, hstored]
      exact hjoins.bind (Ends.pure _)
    have hmembers := Within.of_ends hbatched hone
    have hsigning := Within.of_ends hmembers Ends.get
    have hskipped := hfull.signatures_ends hafter.signatures (within_bind_iff.mp hsigning)
    have hsigned := Within.of_ends hsigning hskipped
    have hclosing := Within.of_ends hsigned Ends.get
    have hlast : Counted cost { next with
        batch := { next.batch with releaseOrdinals := unusedOrdinals later } } := hcounted
    refine absurd (rows_le_of_within hlast ?_ (within_bind_iff.mp hclosing)) hover
    rw [isEmpty_eq_false_iff.mpr hobjects]
    rfl

/-- **When every batch fits**: the first member must fit, with its pack, in the batch that the last
values have begun. -/
theorem publishMembers_rows_iff {capacities : Capacities}
    (hlimit : capacities.transactionRows = transactionRowLimit)
    {members : SortedMap Id (StoredObject Id Value)} {order : List Id} {state : State encoder}
    (hprepared : Prepared cost members order state) :
    Within cost transactionRowLimit (publishMembers capacities members order) state
        (fun _ _ => True) ↔
      ∀ id ∈ order.head?, ∀ stored sealed, members.get? id = some stored →
        sealedOf state.packer stored.location.packId = .ok sealed →
          lastValues transactionRowLimit state.values.entries.length +
            (cost ⟨sealed.info, sealed.body⟩).1 + 1 ≤ transactionRowLimit := by
  have hroom : groupCountLimit + 2 ≤ capacities.transactionRows := by
    rw [hlimit]
    decide
  rw [← hlimit]
  refine ⟨fun hwithin id hid stored sealed hstored hsealed => ?_, publishMembers_within hroom state⟩
  cases order with
  | nil => cases hid
  | cons first rest =>
    cases hid
    exact room_of_publishMembers (by omega) hprepared hwithin hstored hsealed

/-! ### One pack behind many values -/

def aloneStored : StoredObject ℕ ℕ :=
  ⟨⟨1, .chunk, 1, 1, 0, 0⟩, ⟨1, .chunk, [7], [], []⟩, .chunk, [7], none, []⟩

def aloneSealed : Sealed ℕ ℕ := ⟨⟨1, .payload, 1⟩, [7], [aloneStored]⟩

def afterValues (count : ℕ) : State plainEncoder where
  absent := []
  batch := []
  batchBytes := 0
  ring := ()
  signatures := .empty
  packer := { Packer.new with ready := [aloneSealed] }
  values := ⟨(List.range count).map fun ordinal => (ordinal, 0),
    pairwise_map.mpr (pairwise_lt_range (n := count))⟩
  valueMemo := .empty
  nextOrdinal := count
  ordinalEnd := count
  finishing := false
  outcome := .zero
  nextPack := 2
  packEnd := 4

/-- The capacities every accepted policy has (`StorageCapacities::from_policy`), with the default
reservations. -/
def policyCapacities : Capacities :=
  ⟨512, 4194303, transactionRowLimit, 4194303, 4194303, 4096, 4096, 16384⟩

/-- A monolithic provider (`publication_pack_cost`): one row and the bytes of the body. -/
def monolithic (pack : PublishedPack) : ℕ × ℕ := (1, pack.body.length)

theorem afterValues_prepared (count : ℕ) :
    Prepared monolithic (readyMembers (afterValues count).packer) [1] (afterValues count) := by
  refine ⟨fun id hid => ?_, fun sealed hsealed => ?_, forall_mem_nil _⟩
  · cases mem_singleton.mp hid
    exact ⟨aloneStored, rfl, aloneSealed, rfl⟩
  · cases mem_singleton.mp hsealed
    exact ⟨by decide, by decide, by decide, by decide⟩

theorem length_afterValues (count : ℕ) : (afterValues count).values.entries.length = count := by
  rw [afterValues, length_map, length_range]

/-- Behind three values the pack and its member have room. -/
theorem publishMembers_rows_three :
    Within monolithic transactionRowLimit (publishMembers policyCapacities
      (readyMembers (afterValues 3).packer) [1]) (afterValues 3) fun _ _ => True := by
  refine (publishMembers_rows_iff rfl (afterValues_prepared 3)).mpr ?_
  intro id hid stored sealed hstored hsealed
  cases hid
  cases hstored
  cases hsealed
  rw [length_afterValues]
  decide

theorem not_within_afterValues
    (hcount : transactionRowLimit < lastValues transactionRowLimit count + 2) :
    ¬ Within monolithic transactionRowLimit (publishMembers policyCapacities
      (readyMembers (afterValues count).packer) [1]) (afterValues count) fun _ _ => True := by
  intro hwithin
  have hroom := room_of_publishMembers (by decide : 0 < policyCapacities.transactionRows)
    (afterValues_prepared count) hwithin (Eq.refl (some aloneStored))
    (Eq.refl (Except.ok aloneSealed))
  rw [length_afterValues] at hroom
  exact absurd hroom (Nat.not_le.mpr hcount)

/-- **A batch over the bound**: a full batch of values takes the first member and its pack. -/
theorem publishMembers_over_rows :
    Prepared monolithic (readyMembers (afterValues 8191).packer) [1] (afterValues 8191) ∧
      ¬ Within monolithic transactionRowLimit (publishMembers policyCapacities
        (readyMembers (afterValues 8191).packer) [1]) (afterValues 8191) fun _ _ => True :=
  ⟨afterValues_prepared 8191, not_within_afterValues (by decide +kernel)⟩

end Save

end LayerFs
