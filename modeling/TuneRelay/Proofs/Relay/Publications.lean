import TuneRelay.Proofs.Relay.Session
import Mathlib.Data.List.Basic
import Mathlib.Data.List.Range
import Mathlib.Tactic.ByContra
import Mathlib.Tactic.Cases

/-!
# The fates of publications

The successful publications of a session are numbered 1, 2, 3, … A history records what each call
did to the slot, read off the calls and their replies; only the block that a publication replaces
is read off the slot. It determines what the next consumption delivers, and every publication meets
exactly one fate in it.
-/
namespace TuneRelay

/-- What a call did to the slot. -/
inductive Event
  | published (block : Block) (replaced : Option Block)
  | withdrawn (block : Block)
  | delivered (quantum : Bool)
  | quiet

namespace Event

def isPublication : Event → Bool
  | published _ _ => true
  | _ => false

def isOverwriting : Event → Bool
  | published _ (some _) => true
  | _ => false

def isWithdrawal : Event → Bool
  | withdrawn _ => true
  | _ => false

def isDelivery : Event → Bool
  | delivered _ => true
  | _ => false

/-- A delivery by the callback. -/
def isQuantum : Event → Bool
  | delivered quantum => quantum
  | _ => false

/-- The block that left the slot unheard. -/
def unheard : Event → Option Block
  | published _ replaced => replaced
  | withdrawn block => some block
  | _ => none

end Event

namespace Session

/-- What a call and its reply tell of the slot. -/
def event (s : Session) (call : Call) : Event :=
  let reply := (s.step call).1
  match call with
  | .publisher call =>
    if reply.publishes then call.offered.elim .quiet (.published · s.slot)
    else reply.handedBack.elim .quiet .withdrawn
  | .take take => if reply.delivers then .delivered take.isQuantum else .quiet
  | _ => .quiet

def history (s : Session) : List Call → List Event
  | [] => []
  | call :: rest => s.event call :: (s.step call).2.history rest

theorem history_concat (s : Session) (calls : List Call) (call : Call) :
    s.history (calls ++ [call]) = s.history calls ++ [(s.after calls).event call] := by
  induction calls generalizing s with
  | nil => rfl
  | cons first rest ih =>
    simp only [List.cons_append, history, ih]
    rfl

end Session

/-- How an event moves the slot. -/
inductive Moves : Option Block → Event → Option Block → Prop
  | published (block : Block) (slot : Option Block) :
    Moves slot (.published block slot) (some block)
  | withdrawn (block : Block) : Moves (some block) (.withdrawn block) none
  | delivered (block : Block) (quantum : Bool) : Moves (some block) (.delivered quantum) none
  | quiet (slot : Option Block) : Moves slot .quiet slot

theorem publisher_moves (s : Session) (call : PublisherCall) :
    Moves s.slot (s.event (.publisher call)) (s.step (.publisher call)).2.slot := by
  by_cases hp : s.publisher = true
  · have hr : (s.step (.publisher call)).1 = (call.perform s.callback.relay).1 := by
      simp [Session.step, hp]
    have hs : (s.step (.publisher call)).2.slot = (call.perform s.callback.relay).2.pending := by
      simp [Session.step, Session.slot, hp]
    cases ho : call.offered with
    | some block =>
      obtain ⟨hn, hpub⟩ := PublisherCall.perform_offered ho s.callback.relay
      simp only [Session.event, hr, hs, hpub, hn, ho]
      exact .published block s.slot
    | none =>
      obtain ⟨hpub, ⟨hw, hn⟩ | ⟨hw, hn⟩⟩ := PublisherCall.perform_not_offered ho s.callback.relay
      · have hw' : (call.perform s.callback.relay).1.handedBack = s.slot := hw
        simp only [Session.event, hr, hs, hpub, hw', hn]
        cases s.slot with
        | none => exact .quiet none
        | some block => exact .withdrawn block
      · simp only [Session.event, hr, hs, hpub, hw, hn]
        exact .quiet s.slot
  · have hstep : s.step (.publisher call) = (.gone, s) := by simp [Session.step, hp]
    simp only [Session.event, hstep]
    exact .quiet s.slot

theorem take_moves (s : Session) (take : Take) :
    Moves s.slot (s.event (.take take)) (s.step (.take take)).2.slot := by
  cases h : s.slot with
  | none =>
    obtain ⟨hr, hn, -⟩ := Take.perform_none h take
    simp only [Session.event, Session.step, Session.slot, hr, hn, Reply.delivers]
    rw [← Session.slot, h]
    exact .quiet none
  | some block =>
    obtain ⟨hr, hn, -⟩ := Take.perform_some h take
    simp only [Session.event, Session.step, Session.slot, hr, hn, Reply.delivers]
    exact .delivered block take.isQuantum

/-- No call moves the slot but by the event that its reply tells of. -/
theorem step_moves (s : Session) (call : Call) :
    Moves s.slot (s.event call) (s.step call).2.slot := by
  cases call with
  | publisher call => exact publisher_moves s call
  | dropPublisher =>
    have hs : (s.step .dropPublisher).2.slot = s.slot := by
      by_cases hp : s.publisher = true <;> simp [Session.step, Session.slot, hp]
    rw [hs]
    exact .quiet s.slot
  | take take => exact take_moves s take
  | isReady => exact .quiet s.slot
  | drainFacts =>
    simp only [Session.step, Session.slot, Render.Callback.drain_relay]
    exact .quiet s.slot

def publications (h : List Event) : Nat := h.countP Event.isPublication

theorem publications_concat (h : List Event) (e : Event) :
    publications (h ++ [e]) = publications h + e.isPublication.toNat := by
  cases he : e.isPublication <;> simp [publications, he]

/-- The number of the latest publication before each event of a kind, after `n` publications. -/
def numbersFrom (kind : Event → Bool) (n : Nat) : List Event → List Nat
  | [] => []
  | e :: rest => (if kind e then [n] else []) ++ numbersFrom kind (n + e.isPublication.toNat) rest

def numbers (kind : Event → Bool) (h : List Event) : List Nat := numbersFrom kind 0 h

theorem numbersFrom_concat (kind : Event → Bool) (n : Nat) (h : List Event) (e : Event) :
    numbersFrom kind n (h ++ [e]) =
      numbersFrom kind n h ++ if kind e then [n + publications h] else [] := by
  induction h generalizing n with
  | nil => simp [numbersFrom, publications]
  | cons first rest ih =>
    have hn : n + first.isPublication.toNat + publications rest =
        n + publications (first :: rest) := by
      cases hf : first.isPublication <;> simp [publications, hf, Nat.add_comm, Nat.add_left_comm]
    rw [List.cons_append, numbersFrom, numbersFrom, ih, hn, List.append_assoc]

theorem numbers_concat (kind : Event → Bool) (h : List Event) (e : Event) :
    numbers kind (h ++ [e]) = numbers kind h ++ if kind e then [publications h] else [] := by
  rw [numbers, numbersFrom_concat, Nat.zero_add]
  rfl

theorem length_numbersFrom (kind : Event → Bool) (n : Nat) (h : List Event) :
    (numbersFrom kind n h).length = h.countP kind := by
  induction h generalizing n with
  | nil => rfl
  | cons e rest ih =>
    rw [numbersFrom, List.length_append, ih, List.countP_cons, Nat.add_comm]
    split <;> rfl

/-- The latest publication is this block, and nothing has taken it from the slot since. -/
def Awaits (h : List Event) (block : Block) : Prop :=
  ∃ before replaced later, h = before ++ .published block replaced :: later ∧
    ∀ e ∈ later, e = .quiet

theorem awaits_iff_since (h : List Event) (block : Block) : Awaits h block ↔
    Since (∃ replaced, · = .published block replaced) (· = .quiet) h := by
  constructor
  · rintro ⟨before, replaced, later, rfl, hq⟩
    exact ⟨before, _, later, rfl, ⟨replaced, rfl⟩, hq⟩
  · rintro ⟨before, _, later, rfl, ⟨replaced, rfl⟩, hq⟩
    exact ⟨before, replaced, later, rfl, hq⟩

theorem not_awaits_nil (block : Block) : ¬ Awaits [] block := by
  rw [awaits_iff_since]
  exact not_since_nil

theorem awaits_concat (h : List Event) (e : Event) (block : Block) : Awaits (h ++ [e]) block ↔
    (∃ replaced, e = .published block replaced) ∨ e = .quiet ∧ Awaits h block := by
  rw [awaits_iff_since, awaits_iff_since, since_concat]

/-- The number of the publication that still waits in the slot, if one does. -/
def waiting (h : List Event) (slot : Option Block) : List Nat :=
  if slot.isSome then [publications h] else []

/-- All publications by what became of them. -/
def fates (h : List Event) (slot : Option Block) : List Nat :=
  numbers Event.isDelivery h ++ numbers Event.isOverwriting h ++ numbers Event.isWithdrawal h ++
    waiting h slot

/-- A history accounts for the slot and for every publication. -/
structure Accounts (h : List Event) (slot : Option Block) : Prop where
  slot_iff : ∀ block, slot = some block ↔ Awaits h block
  fates_perm : (fates h slot).Perm (List.range' 1 (publications h))
  increasing : (numbers Event.isDelivery h).Pairwise (· < ·)
  unheard : ∀ before e later block, h = before ++ e :: later → e.unheard = some block →
    Awaits before block

theorem accounts_nil : Accounts [] none := by
  refine ⟨?_, .refl _, .nil, ?_⟩
  · intro block
    simp [not_awaits_nil block]
  · intro before e later block h
    cases before <;> cases h

/-- The slot after a move is what the longer history says. -/
theorem awaits_of_moves {h : List Event} {slot next : Option Block} {e : Event}
    (hm : Moves slot e next) (hs : ∀ block, slot = some block ↔ Awaits h block) (block : Block) :
    next = some block ↔ Awaits (h ++ [e]) block := by
  rw [awaits_concat]
  cases hm with
  | published b slot => simp
  | withdrawn b => simp
  | delivered b quantum => simp
  | quiet slot => simp [hs block]

/-- What was waiting before a move waits after it or meets its fate in it. -/
theorem fates_of_moves {h : List Event} {slot next : Option Block} {e : Event}
    (hm : Moves slot e next) (hf : (fates h slot).Perm (List.range' 1 (publications h))) :
    (fates (h ++ [e]) next).Perm (List.range' 1 (publications (h ++ [e]))) := by
  have hr : List.range' 1 (publications h + 1) =
      List.range' 1 (publications h) ++ [publications h + 1] := by
    rw [List.range'_concat, Nat.one_mul, Nat.add_comm 1]
  rw [List.perm_iff_count] at hf ⊢
  intro k
  have hk := hf k
  simp only [fates, waiting, numbers_concat, publications_concat, List.count_append] at hk ⊢
  -- the number in the slot goes from the list of the waiting to that of its fate
  rcases hm with ⟨b, _ | old⟩ | b | ⟨b, quantum⟩ | slot
  all_goals
    simp only [Event.isDelivery, Event.isOverwriting, Event.isWithdrawal, Event.isPublication,
      Option.isSome, if_true, if_false, Bool.false_eq_true, Bool.toNat_true, Bool.toNat_false,
      Nat.add_zero, hr, List.count_append, List.count_nil] at hk ⊢
    omega

/-- A publication that waits has not been delivered. -/
theorem lt_of_mem_deliveries {h : List Event} {block : Block}
    (hf : (fates h (some block)).Perm (List.range' 1 (publications h))) {k : Nat}
    (hk : k ∈ numbers Event.isDelivery h) : k < publications h := by
  have hnodup := hf.nodup_iff.mpr List.nodup_range'
  have hmem : k ∈ fates h (some block) := by simp [fates, hk]
  have hle : k ≤ publications h := by
    have := List.mem_range'_1.mp (hf.mem_iff.mp hmem)
    omega
  have hne : k ≠ publications h := by
    rintro rfl
    simp only [fates, List.append_assoc] at hnodup
    exact (List.nodup_append.mp hnodup).2.2 _ hk _ (by simp [waiting]) rfl
  omega

theorem increasing_of_moves {h : List Event} {slot next : Option Block} {e : Event}
    (hm : Moves slot e next) (ha : Accounts h slot) :
    (numbers Event.isDelivery (h ++ [e])).Pairwise (· < ·) := by
  rw [numbers_concat]
  cases hm with
  | published b slot => simpa [Event.isDelivery] using ha.increasing
  | withdrawn b => simpa [Event.isDelivery] using ha.increasing
  | delivered b quantum =>
    refine List.pairwise_append.mpr ⟨ha.increasing, List.pairwise_singleton _ _, ?_⟩
    intro k hk n hn
    have hn' : n = publications h := List.mem_singleton.mp hn
    rw [hn']
    exact lt_of_mem_deliveries ha.fates_perm hk
  | quiet slot => simpa [Event.isDelivery] using ha.increasing

/-- What leaves the slot unheard is the block that waits. -/
theorem awaits_of_unheard {h : List Event} {slot next : Option Block} {e : Event}
    (hm : Moves slot e next) (ha : Accounts h slot) {block : Block} (hu : e.unheard = some block) :
    Awaits h block := by
  apply (ha.slot_iff block).mp
  cases hm with
  | published b slot => exact hu
  | withdrawn b => exact hu
  | delivered b quantum => cases hu
  | quiet slot => cases hu

theorem Accounts.concat {h : List Event} {slot next : Option Block} {e : Event}
    (ha : Accounts h slot) (hm : Moves slot e next) : Accounts (h ++ [e]) next := by
  refine ⟨awaits_of_moves hm ha.slot_iff, fates_of_moves hm ha.fates_perm,
    increasing_of_moves hm ha, ?_⟩
  intro before d later block hsplit hu
  rcases concat_eq_split hsplit with ⟨-, rfl, rfl⟩ | ⟨rest, -, hh⟩
  · exact awaits_of_unheard hm ha hu
  · exact ha.unheard before d rest block hh hu

theorem accounts_history (facts : Option (Ring Render.FactId)) (calls : List Call) :
    Accounts ((Session.fresh facts).history calls) ((Session.fresh facts).after calls).slot := by
  induction calls using List.reverseRecOn with
  | nil => exact accounts_nil
  | append_singleton calls call ih =>
    rw [Session.history_concat, Session.after_concat]
    exact ih.concat (step_moves _ call)

theorem step_delivered (s : Session) (call : Call) : (s.step call).2.callback.delivered =
    s.callback.delivered + (s.event call).isQuantum.toNat := by
  cases call with
  | publisher call =>
    have he : (s.event (.publisher call)).isQuantum = false := by
      simp only [Session.event]
      split
      · cases call.offered <;> rfl
      · cases (s.step (.publisher call)).1.handedBack <;> rfl
    rw [he]
    by_cases hp : s.publisher = true <;> simp [Session.step, hp]
  | dropPublisher =>
    by_cases hp : s.publisher = true <;>
      simp [Session.step, hp, Session.event, Event.isQuantum]
  | take take =>
    cases h : s.callback.relay.pending with
    | none =>
      obtain ⟨hr, -, hd⟩ := Take.perform_none h take
      simp [Session.event, Session.step, hr, hd, Reply.delivers, Outcome.isDelivered,
        Event.isQuantum]
    | some block =>
      obtain ⟨hr, -, hd⟩ := Take.perform_some h take
      simp [Session.event, Session.step, hr, hd, Reply.delivers, Outcome.isDelivered,
        Event.isQuantum]
  | isReady => rfl
  | drainFacts =>
    cases hf : s.callback.facts <;>
      simp [Session.step, Render.Callback.drain, hf, Session.event, Event.isQuantum]

theorem after_delivered (facts : Option (Ring Render.FactId)) (calls : List Call) :
    ((Session.fresh facts).after calls).callback.delivered =
      ((Session.fresh facts).history calls).countP Event.isQuantum := by
  induction calls using List.reverseRecOn with
  | nil => rfl
  | append_singleton calls call ih =>
    rw [Session.history_concat, Session.after_concat, step_delivered, ih, List.countP_append,
      List.countP_singleton]
    cases (((Session.fresh facts).after calls).event call).isQuantum <;> rfl

theorem take_awaiting {s : Session} {block : Block} (h : s.slot = some block) (take : Take) :
    (s.step (.take take)).1 = .taken (.delivered (take.frames block)) (take.heard block) :=
  (Take.perform_some h take).1

theorem take_idle {s : Session} (h : s.slot = none) (take : Take) :
    (s.step (.take take)).1 = .taken .silence take.silence :=
  (Take.perform_none h take).1

theorem isSome_eq_waiting (h : List Event) (slot : Option Block) :
    slot.isSome = decide ((waiting h slot).length = 1) := by
  cases slot <;> rfl

theorem Accounts.publications_eq {h : List Event} {slot : Option Block} (ha : Accounts h slot) :
    publications h = h.countP Event.isDelivery + h.countP Event.isOverwriting +
      h.countP Event.isWithdrawal + (waiting h slot).length := by
  have hl := ha.fates_perm.length_eq
  simp only [fates, numbers, List.length_append, length_numbersFrom, List.length_range'] at hl
  exact hl.symm

/-- After any calls on a fresh session: a consumption delivers just when the latest publication
waits, and then it puts out that publication's block; deliveries go by increasing numbers; every
publication has exactly one fate, and what is not delivered is replaced or handed back as it was
published; both ends see the slot as it is; and the callback has counted its
own deliveries. -/
theorem publication_fates (facts : Option (Ring Render.FactId)) (calls : List Call) :
    let s := (Session.fresh facts).after calls
    let h := (Session.fresh facts).history calls
    let pending := (waiting h s.slot).length
    (∀ take, (s.step (.take take)).1.delivers = true ↔ ∃ block, Awaits h block) ∧
    (∀ take block, Awaits h block →
      (s.step (.take take)).1 = .taken (.delivered (take.frames block)) (take.heard block)) ∧
    (∀ take, (¬ ∃ block, Awaits h block) → (s.step (.take take)).1 = .taken .silence take.silence) ∧
    (∀ block, s.slot = some block ↔ Awaits h block) ∧
    (s.publisher = true → (s.step (.publisher .clear)).1 = .withdrawn s.slot) ∧
    (numbers Event.isDelivery h).Pairwise (· < ·) ∧
    (numbers Event.isDelivery h ++ numbers Event.isOverwriting h ++ numbers Event.isWithdrawal h ++
      waiting h s.slot).Perm (List.range' 1 (publications h)) ∧
    (∀ before e later block, h = before ++ e :: later → e.unheard = some block →
      Awaits before block) ∧
    publications h = h.countP Event.isDelivery + h.countP Event.isOverwriting +
      h.countP Event.isWithdrawal + pending ∧
    pending ≤ 1 ∧
    (s.step .isReady).1 = .ready (decide (pending = 1)) ∧
    (s.publisher = true →
      (s.step (.publisher .isPending)).1 = .pending (decide (pending = 1))) ∧
    s.callback.delivered = h.countP Event.isQuantum := by
  intro s h pending
  have ha : Accounts h s.slot := accounts_history facts calls
  have hidle (hn : ¬ ∃ block, Awaits h block) : s.slot = none := by
    rw [Option.eq_none_iff_forall_ne_some]
    intro block hb
    exact hn ⟨block, (ha.slot_iff block).mp hb⟩
  have hsees : s.callback.relay.pending.isSome = decide (pending = 1) := isSome_eq_waiting h s.slot
  refine ⟨?_, ?_, ?_, ha.slot_iff, ?_, ha.increasing, ha.fates_perm, ha.unheard,
    ha.publications_eq, ?_, ?_, ?_, after_delivered facts calls⟩
  · intro take
    constructor
    · intro hd
      by_contra hn
      rw [take_idle (hidle hn)] at hd
      cases hd
    · rintro ⟨block, hb⟩
      rw [take_awaiting ((ha.slot_iff block).mpr hb)]
      rfl
  · intro take block hb
    exact take_awaiting ((ha.slot_iff block).mpr hb) take
  · intro take hn
    exact take_idle (hidle hn) take
  · intro hp
    simp only [Session.step, hp, if_true]
    rfl
  · simp only [pending, waiting]
    split <;> simp
  · simp only [Session.step, Relay.isReady, hsees]
  · intro hp
    simp only [Session.step, hp, if_true, PublisherCall.perform, Relay.isPending, hsees]

end TuneRelay
