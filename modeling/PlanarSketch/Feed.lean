/-
Event feeds.

A feed keeps one queue for every subscriber.  Publishing an event appends it
to every queue, and a subscriber takes its queue whenever it likes, so nothing
is lost and nothing is delivered twice.

Main statements:
* `queue_publish`, `queue_drain`, `queue_subscribe`, `queue_unsubscribe`: what
  each operation does to the queue of a subscriber;
* `isSubscribed_publish`, `isSubscribed_drain`: who is subscribed.
-/
import PlanarSketch.Collection.Registry

namespace PlanarSketch

/-- One queue of events for every subscriber. -/
structure Feed (ε : Type) where
  queues : Registry (List ε)

/-- A subscriber of a feed. -/
abbrev ListenerId (ε : Type) := Key (List ε)

namespace Feed

variable {ε : Type}

/-- The feed without subscribers. -/
def empty : Feed ε := ⟨.empty⟩

instance : Inhabited (Feed ε) := ⟨empty⟩

/-- Adds a subscriber, who gets the events published from now on. -/
def subscribe (f : Feed ε) : ListenerId ε × Feed ε := (f.queues.nextKey, ⟨f.queues.insert []⟩)

/-- Drops a subscriber and what is queued for it. -/
def unsubscribe (f : Feed ε) (l : ListenerId ε) : Feed ε := ⟨f.queues.erase l⟩

/-- Whether the listener is subscribed. -/
def isSubscribed (f : Feed ε) (l : ListenerId ε) : Bool := f.queues.contains l

/-- The number of subscribers. -/
def listenerCount (f : Feed ε) : Nat := f.queues.size

/-- The events queued for a listener, oldest first. -/
def queue (f : Feed ε) (l : ListenerId ε) : List ε := (f.queues.find? l).getD []

/-- Appends an event to every queue. -/
def publish (f : Feed ε) (event : ε) : Feed ε := ⟨f.queues.map fun q => q ++ [event]⟩

/-- Takes every event queued for a listener. -/
def drain (f : Feed ε) (l : ListenerId ε) : List ε × Feed ε :=
  (f.queue l, ⟨f.queues.modify l fun _ => []⟩)

/-! ### The queue of one listener -/

/-- An event is appended to the queue of every subscriber. -/
theorem queue_publish (f : Feed ε) (event : ε) {l : ListenerId ε} (h : f.isSubscribed l = true) :
    (f.publish event).queue l = f.queue l ++ [event] := by
  unfold queue publish
  rw [Registry.find?_map]
  cases hq : f.queues.find? l with
  | none => exact absurd (Registry.contains_iff.1 h) (Registry.find?_eq_none.1 hq)
  | some q => rfl

theorem isSubscribed_publish (f : Feed ε) (event : ε) (l : ListenerId ε) :
    (f.publish event).isSubscribed l = f.isSubscribed l := by
  unfold isSubscribed publish
  rw [Bool.eq_iff_iff, Registry.contains_iff, Registry.contains_iff, Registry.keys_map]

theorem isSubscribed_drain (f : Feed ε) (l m : ListenerId ε) :
    (f.drain l).2.isSubscribed m = f.isSubscribed m := by
  unfold isSubscribed drain
  rw [Bool.eq_iff_iff, Registry.contains_iff, Registry.contains_iff, Registry.keys_modify]

/-- Nothing is queued for one who is not subscribed. -/
theorem queue_of_not_isSubscribed {f : Feed ε} {l : ListenerId ε} (h : f.isSubscribed l = false) :
    f.queue l = [] := by
  have hnone : f.queues.find? l = none := by
    rw [Registry.find?_eq_none, ← Registry.contains_iff, Bool.not_eq_true]
    exact h
  simp [queue, hnone]

/-- A new subscriber has an empty queue. -/
theorem queue_subscribe (f : Feed ε) : f.subscribe.2.queue f.subscribe.1 = [] := by
  simp [queue, subscribe, Registry.find?_insert]

/-- Draining empties the queue of the listener and of no other. -/
theorem queue_drain (f : Feed ε) (l m : ListenerId ε) :
    (f.drain l).2.queue m = if l = m then [] else f.queue m := by
  unfold queue drain
  rw [Registry.find?_modify]
  by_cases h : l = m
  · cases f.queues.find? m <;> simp [h]
  · simp [h]

/-- One who has gone has no queue. -/
theorem queue_unsubscribe (f : Feed ε) (l m : ListenerId ε) :
    (f.unsubscribe l).queue m = if l = m then [] else f.queue m := by
  unfold queue unsubscribe
  rw [Registry.find?_erase]
  by_cases h : l = m <;> simp [h]

end Feed

end PlanarSketch
