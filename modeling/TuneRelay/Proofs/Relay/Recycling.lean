import TuneRelay.Proofs.Relay.Session
import Mathlib.Data.List.Induction

/-!
# What waits to be collected

A block comes back only after it was published, and a publication empties the queue first. So at
most one block ever waits there, the queue is never full, and the renderer has no block to free.
-/
namespace TuneRelay

namespace Reply

/-- After the call nothing waits to be collected. -/
def empties (reply : Reply) : Bool := reply.publishes || reply.collects

theorem delivers_of_empties {reply : Reply} (h : reply.empties = true) :
    reply.delivers = false := by
  cases reply with
  | taken outcome output => cases h
  | _ => rfl

end Reply

namespace Session

def replies (s : Session) : List Call → List Reply
  | [] => []
  | call :: rest => (s.step call).1 :: (s.step call).2.replies rest

theorem replies_concat (s : Session) (calls : List Call) (call : Call) :
    s.replies (calls ++ [call]) = s.replies calls ++ [((s.after calls).step call).1] := by
  induction calls generalizing s with
  | nil => rfl
  | cons first rest ih =>
    simp only [List.cons_append, replies, ih]
    rfl

end Session

/-- A block has come back from the renderer, and no call since has emptied the queue. -/
def Returned (replies : List Reply) : Prop :=
  ∃ before reply later, replies = before ++ reply :: later ∧ reply.delivers = true ∧
    ∀ r ∈ later, r.empties = false

theorem returned_concat (replies : List Reply) (reply : Reply) : Returned (replies ++ [reply]) ↔
    reply.delivers = true ∨ reply.empties = false ∧ Returned replies :=
  since_concat replies reply

theorem not_returned_nil : ¬ Returned [] := not_since_nil

/-- How a call moves a relay, by its reply. -/
inductive Recycles : Relay → Reply → Relay → Prop
  | published {reply : Reply} (h : reply.publishes = true) (r : Relay) (block : Block) :
    Recycles r reply (r.publish block)
  | collected (r : Relay) : Recycles r (.collected r.recycled.items.length) r.collectGarbage.2
  | delivered {reply : Reply} (h : reply.delivers = true) {r : Relay} {block : Block}
    (pending : r.pending = some block) : Recycles r reply (r.finish block)
  | withdrawn (r : Relay) : Recycles r (.withdrawn r.pending) r.clear.2
  | idle {reply : Reply} (hempties : reply.empties = false) (hdelivers : reply.delivers = false)
    (r : Relay) : Recycles r reply r

theorem PublisherCall.recycles (call : PublisherCall) (r : Relay) :
    Recycles r (call.perform r).1 (call.perform r).2 := by
  cases ho : call.offered with
  | some block =>
    obtain ⟨hnext, hpublishes⟩ := perform_offered ho r
    rw [hnext]
    exact .published hpublishes r block
  | none =>
    by_cases hclear : call = .clear
    · subst hclear
      exact .withdrawn r
    · by_cases hcollect : call = .collectGarbage
      · subst hcollect
        exact .collected r
      · obtain ⟨hsame, hidle⟩ := perform_idle ho hclear hcollect r
        obtain ⟨hpublishes, hcollects, hdelivers, -⟩ := hidle.flags
        rw [hsame]
        exact .idle (by rw [Reply.empties, hpublishes, hcollects]; rfl) hdelivers r

theorem Take.recycles (take : Take) (cb : Render.Callback) :
    Recycles cb.relay (take.perform cb).1 (take.perform cb).2.relay := by
  cases h : cb.relay.pending with
  | none =>
    obtain ⟨hreply, hnext, -⟩ := perform_none h take
    rw [hreply, hnext]
    exact .idle rfl rfl cb.relay
  | some block =>
    obtain ⟨hreply, hnext, -⟩ := perform_some h take
    rw [hreply, hnext]
    exact .delivered rfl h

theorem step_recycles (s : Session) (call : Call) :
    Recycles s.callback.relay (s.step call).1 (s.step call).2.callback.relay := by
  cases call with
  | publisher call =>
    by_cases hp : s.publisher = true
    · simp only [Session.step, hp, if_true]
      exact call.recycles s.callback.relay
    · simp only [Session.step, hp]
      exact .idle rfl rfl _
  | dropPublisher =>
    by_cases hp : s.publisher = true
    · simp only [Session.step, hp, if_true]
      exact .idle rfl rfl _
    · simp only [Session.step, hp]
      exact .idle rfl rfl _
  | take take => exact take.recycles s.callback
  | isReady => exact .idle rfl rfl _
  | drainFacts =>
    simp only [Session.step, Render.Callback.drain_relay]
    exact .idle rfl rfl _

/-- What the replies so far tell of the queue. -/
structure Waits (replies : List Reply) (r : Relay) : Prop where
  capacity : r.recycled.capacity = 64
  empty_of_pending : r.pending.isSome = true → r.recycled.items = []
  one : Returned replies → r.recycled.items.length = 1
  none : ¬ Returned replies → r.recycled.items = []

theorem waits_fresh : Waits [] {} := by
  refine ⟨rfl, fun _ => rfl, ?_, fun _ => rfl⟩
  intro h
  exact absurd h not_returned_nil

theorem Waits.length_le {replies : List Reply} {r : Relay} (h : Waits replies r) :
    r.recycled.items.length ≤ 1 := by
  by_cases hr : Returned replies
  · exact Nat.le_of_eq (h.one hr)
  · simp [h.none hr]

/-- A queue with one block or none takes another. -/
theorem Waits.finish_items {replies : List Reply} {r : Relay} (h : Waits replies r)
    (block : Block) : (r.finish block).recycled.items = r.recycled.items ++ [block] := by
  have hroom : 1 ≤ r.recycled.capacity - r.recycled.items.length := by
    have := h.length_le
    rw [h.capacity]
    omega
  simp only [Relay.finish, Ring.push, Ring.pushAll_items]
  rw [List.take_of_length_le hroom]

theorem Waits.concat {replies : List Reply} {reply : Reply} {r next : Relay}
    (h : Waits replies r) (hm : Recycles r reply next) : Waits (replies ++ [reply]) next := by
  have hempties (he : reply.empties = true) : ¬ Returned (replies ++ [reply]) := by
    rw [returned_concat, Reply.delivers_of_empties he, he]
    simp
  have hkept (he : reply.empties = false) (hd : reply.delivers = false) :
      Returned (replies ++ [reply]) ↔ Returned replies := by
    rw [returned_concat, he, hd]
    simp
  cases hm with
  | published hp r block =>
    have he : reply.empties = true := by simp [Reply.empties, hp]
    exact ⟨h.capacity, fun _ => rfl, fun hr => absurd hr (hempties he), fun _ => rfl⟩
  | collected r =>
    exact ⟨h.capacity, fun _ => rfl, fun hr => absurd hr (hempties rfl), fun _ => rfl⟩
  | delivered hd hpending =>
    rename_i block
    have hitems := h.finish_items block
    rw [h.empty_of_pending (by rw [hpending]; rfl)] at hitems
    have hr : Returned (replies ++ [reply]) := (returned_concat _ _).mpr (.inl hd)
    refine ⟨h.capacity, ?_, ?_, fun hn => absurd hr hn⟩
    · intro hpending
      cases hpending
    · intro _
      rw [hitems]
      rfl
  | withdrawn r =>
    have hk := hkept rfl rfl
    refine ⟨h.capacity, ?_, fun hr => h.one (hk.mp hr), fun hn => h.none (mt hk.mpr hn)⟩
    intro hpending
    cases hpending
  | idle he hd r =>
    have hk := hkept he hd
    exact ⟨h.capacity, h.empty_of_pending, fun hr => h.one (hk.mp hr),
      fun hn => h.none (mt hk.mpr hn)⟩

theorem waits_after (facts : Option (Ring Render.FactId)) (calls : List Call) :
    Waits ((Session.fresh facts).replies calls)
      ((Session.fresh facts).after calls).callback.relay := by
  induction calls using List.reverseRecOn with
  | nil => exact waits_fresh
  | append_singleton calls call ih =>
    rw [Session.replies_concat, Session.after_concat]
    exact ih.concat (step_recycles _ call)

/-- Only a call that publishes, collects or delivers touches the queue. -/
theorem Recycles.recycled_eq {r next : Relay} {reply : Reply} (hm : Recycles r reply next)
    (he : reply.empties = false) (hd : reply.delivers = false) : next.recycled = r.recycled := by
  cases hm with
  | published hp r block => simp [Reply.empties, hp] at he
  | collected r => cases he
  | delivered h hpending => simp [h] at hd
  | withdrawn r => rfl
  | idle _ _ r => rfl

/-- After any calls on a fresh session: at most one block waits in a queue for 64, and what the
renderer consumes joins it there; collecting drops one block if a delivery came after the last call
that emptied the queue, and none otherwise; and no other call touches the queue, neither a refused
or ignored publication, nor a withdrawal, nor a silent quantum. -/
theorem recycling_never_overflows (facts : Option (Ring Render.FactId)) (calls : List Call) :
    let s := (Session.fresh facts).after calls
    let replies := (Session.fresh facts).replies calls
    let queue := s.callback.relay.recycled
    queue.items.length ≤ 1 ∧ queue.capacity = 64 ∧
    (∀ take, (s.step (.take take)).1.delivers = true → ∃ block, s.slot = some block ∧
      (s.step (.take take)).2.callback.relay.recycled.items = queue.items ++ [block]) ∧
    (s.publisher = true → Returned replies →
      (s.step (.publisher .collectGarbage)).1 = .collected 1) ∧
    (s.publisher = true → ¬ Returned replies →
      (s.step (.publisher .collectGarbage)).1 = .collected 0) ∧
    ∀ call, (s.step call).1.empties = false → (s.step call).1.delivers = false →
      (s.step call).2.callback.relay.recycled = queue := by
  intro s replies queue
  have hw : Waits replies s.callback.relay := waits_after facts calls
  have hcollect (hp : s.publisher = true) :
      (s.step (.publisher .collectGarbage)).1 = .collected queue.items.length := by
    simp only [Session.step, hp, if_true]
    rfl
  refine ⟨hw.length_le, hw.capacity, ?_, ?_, ?_, ?_⟩
  · intro take hd
    cases h : s.slot with
    | none =>
      obtain ⟨hreply, -, -⟩ := Take.perform_none h take
      simp only [Session.step, hreply] at hd
      cases hd
    | some block =>
      obtain ⟨-, hnext, -⟩ := Take.perform_some h take
      refine ⟨block, rfl, ?_⟩
      simp only [Session.step, hnext]
      exact hw.finish_items block
  · intro hp hr
    rw [hcollect hp, hw.one hr]
  · intro hp hr
    rw [hcollect hp, hw.none hr]
    rfl
  · intro call he hd
    exact (step_recycles s call).recycled_eq he hd

/-- A block comes back and is collected once, past a refused publication and a withdrawal. -/
theorem recycling_never_overflows_refused :
    let sample : Channel := [.silence]
    let calls : List Call := [.publisher (.publish (.mono sample)), .take (.consume 1 2),
      .publisher (.publishFrom sample []), .publisher .clear]
    let s := (Session.fresh none).after calls
    s.publisher = true ∧ Returned ((Session.fresh none).replies calls) ∧
      (s.step (.publisher .collectGarbage)).1 = .collected 1 := by
  intro sample calls s
  have hp : s.publisher = true := rfl
  have hr : Returned ((Session.fresh none).replies calls) := by
    refine ⟨[.published], _, [.refused (.channelLengthMismatch 1 0), .withdrawn none], rfl, rfl, ?_⟩
    simp [Reply.empties, Reply.publishes, Reply.collects]
  obtain ⟨-, -, -, hone, -⟩ := recycling_never_overflows none calls
  exact ⟨hp, hr, hone hp hr⟩

end TuneRelay
