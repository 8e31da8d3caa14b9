import PineForge.Journal.Archive

/-!
# Events and live requests in the archive

The field lists of the journal's events and of the rows of the working book, in the order in which
`archive_io` walks them. Only the requests of the four events of a refused command are read back as
they were stored.
-/

namespace PineForge.Journal

open BigEndian (Bytes bytes word)

/-- The types of a list. -/
def Tys.of : List Ty → Tys
  | [] => .nil
  | t :: ts => .cons t (Tys.of ts)

/-! ## Requests and their state -/

/-- `OrderIntent`. -/
def intent : Ty := .variant (.of
  [.raw .flatten, .raw .reduce, .raw .transact, .raw .reverseTo, .raw .hostSized, .raw .sized])

/-- The trigger of a request. -/
def trigger : Ty := .variant (.of
  [.raw .market, .raw .limit, .raw .stop, .raw .stopLimit, .raw .trail])

/-- The capacity of a request. -/
def capacity : Ty := .variant (.of [.raw .immediateRemaining, .raw .pointBudget])

/-- `BindOpenings`. -/
def bindOpenings : Ty := .fields (.of [.vector .handle, .raw .integer, .external])

/-- Who owns a request. -/
def owner : Ty := .variant (.of
  [.raw .independent, .raw .waitForApplied, .raw .bindOpening, bindOpenings, .raw .cohort])

/-- The group of a request. -/
def group : Ty := .variant (.of [.raw .noGroup, .raw .member])

/-- What levels refer to. -/
def anchor : Ty := .variant (.of [.raw .absolute, .raw .fromOwnerFill])

/-- The request of an event. -/
def request : Ty := .fields (.of
  [intent, .string, .string, trigger, capacity, owner, group, anchor])

/-- `RequestDefinition`. -/
def requestDefinition : Ty := .fields (.of
  [.raw .handle, request, .raw .birth, .optional (.raw .handle), .raw .origin,
    .optional (.raw .handle), .raw .word, .optional (.raw .position)])

/-- A definition that may be missing. -/
def definitionRef : Ty := .optional requestDefinition

/-- `Remaining`. -/
def remaining : Ty := .variant (.of
  [.raw .remainingUnbound, .raw .remainingFlatten, .raw .remainingUnits, .raw .remainingDeferred,
    .raw .remainingNoTarget])

/-- How an opening was enrolled. -/
def enrollment : Ty := .variant (.of [.raw .fromCommand, .raw .fromApplied])

/-- A close of openings. -/
def openingsClose : Ty := .fields (.of
  [.vector .handle, .raw .integer, .raw .side, enrollment, .external])

/-- `Authority`. -/
def authority : Ty := .variant (.of
  [.raw .bookTransaction, .raw .wait, .raw .armedTransaction, .raw .unboundBookClose,
    .raw .bookClose,
    .raw .openingClose, openingsClose, .raw .cohort])

/-- An exposure by its openings. -/
def selectedExposure : Ty := .fields (.of [.raw .integer, .vector .word])

/-- The scope of an execution. -/
def executionScope : Ty := .variant (.of [.raw .scopeBook, .raw .scopeOpening, selectedExposure])

/-- `TriggerState`. -/
def triggerState : Ty := .variant (.of
  [.raw .marketReady, .raw .limitReady, .raw .stopIdle, .raw .stopActive, .raw .stopLimitPending,
    .raw .stopLimitLive, .raw .trailWaitArm, .raw .trailTrack, .raw .trailActive])

/-- `Allowance`. -/
def allowance : Ty := .variant (.of
  [.raw .allowanceUnset, .raw .allowanceUnits, .raw .allowanceAllScope, .raw .allowanceDeferred])

/-- What is pending of a request. -/
def pending : Ty := .variant (.of [.raw .pendingNone, .raw .pendingDeferred])

/-- `LiveRequest`. -/
def liveRequest : Ty := .fields (.of
  [definitionRef, remaining, authority, triggerState, allowance, pending,
    .optional (.raw .real), .optional (.raw .real), .optional (.raw .real)])

/-! ## Events -/

/-- A request was accepted. -/
def acceptedEvent : Ty := .fields (.of [.raw .word, definitionRef, .raw .surface])

/-- A request was refused. -/
def rejectedEvent : Ty := .fields (.of
  [.raw .word, .refused request, .raw .rejectReason, .raw .surface])

/-- A request was replaced. -/
def replacedEvent : Ty := .fields (.of [.raw .word, definitionRef, definitionRef, .raw .surface])

/-- A replacement was refused. -/
def replaceRejectedEvent : Ty := .fields (.of
  [.raw .word, definitionRef, .refused request, .raw .rejectReason, .raw .surface])

/-- A request was cancelled. -/
def cancelledEvent : Ty := .fields (.of
  [.raw .word, definitionRef, .raw .cancelReason, .optional (.raw .eventId), authority, remaining,
    pending])

/-- A handle is not working. -/
def notWorkingEvent : Ty := .fields (.of
  [.raw .word, .raw .handle, .refused (.optional request), .raw .surface])

/-- A handle is invalid. -/
def invalidHandleEvent : Ty := .fields (.of
  [.raw .word, .raw .handle, .refused (.optional request), .raw .surface])

/-- An execution had no effect. -/
def noEffectEvent : Ty := .fields (.of
  [.raw .word, definitionRef, remaining, authority, .raw .cursor])

/-- A match was refused. -/
def matchRejectedEvent : Ty := .fields (.of
  [.raw .word, .raw .matchRejectReason, definitionRef, remaining, authority, .raw .cursor,
    .optional (.raw .executionTerms)])

/-- An execution was applied. -/
def executionAppliedEvent : Ty := .fields (.of
  [.raw .word, definitionRef, .raw .real, .raw .real, .raw .real, .raw .word,
    .raw .word, .raw .word,
    .raw .real, .raw .real, .raw .real, remaining, remaining, allowance, allowance, .raw .flag,
    .optional (.raw .terminalReason), .raw .integer, .raw .integer, executionScope, .raw .cursor])

/-- A close was bound. -/
def closeBoundEvent : Ty := .fields (.of
  [.raw .word, definitionRef, .raw .integer, .raw .side, .raw .cursor, authority, authority])

/-- A trigger was activated. -/
def activatedEvent : Ty := .fields (.of
  [.raw .word, definitionRef, .raw .activationKind, triggerState, triggerState, .raw .real,
    .raw .cursor])

/-- A reservation was reduced. -/
def reservationReducedEvent : Ty := .fields (.of
  [.raw .word, definitionRef, .raw .eventId, .raw .handle, .raw .groupEffect,
    .raw .real, .raw .real,
    .raw .remainingUnits, remaining])

/-- An adjustment of a group waits. -/
def deferredGroupAdjustmentEvent : Ty := .fields (.of
  [.raw .word, definitionRef, .raw .eventId, .raw .handle, .raw .groupEffect, .raw .real, pending,
    .raw .pendingDeferred, .optional (.raw .eventId)])

/-- A quantity was bound. -/
def quantityBoundEvent : Ty := .fields (.of
  [.raw .word, definitionRef, .raw .eventId, .raw .real, .vector .eventId, .raw .real, .raw .real,
    remaining])

/-- A request was armed. -/
def armedEvent : Ty := .fields (.of
  [.raw .word, definitionRef, authority, authority, enrollment, .optional (.raw .eventId)])

/-- Deferred terms were resolved. -/
def termsResolvedEvent : Ty := .fields (.of
  [.raw .word, definitionRef, .raw .cursor, .raw .termsResolvedInput, .vector .eventId, .raw .real,
    .raw .real, remaining, remaining, allowance])

/-- A margin call. -/
def marginCallEvent : Ty := .fields (.of
  [.raw .word, definitionRef, .raw .eventId, .raw .cursor, .raw .side, .raw .real, .raw .real,
    .raw .real, .raw .real, .raw .real, .raw .real, .raw .real])

/-- The events in the order of the variant. -/
def eventTypes : Tys := .of
  [acceptedEvent, rejectedEvent, replacedEvent, replaceRejectedEvent, cancelledEvent,
    notWorkingEvent,
    invalidHandleEvent, noEffectEvent, matchRejectedEvent, executionAppliedEvent, closeBoundEvent,
    activatedEvent, reservationReducedEvent, deferredGroupAdjustmentEvent, quantityBoundEvent,
    armedEvent, termsResolvedEvent, marginCallEvent, .raw .riskEvent]

/-- `CommandEvent`. -/
def commandEvent : Ty := .variant eventTypes

section

variable {sizeOf : Plain → ℕ+}

/-- The ordinal is the first word of every event. -/
def firstWord : (t : Ty) → Val sizeOf t → ℕ
  | .raw _, v => word (v.val.take 8).reverse
  | .fields (.cons (.raw _) _), v => word (v.1.val.take 8).reverse
  | _, _ => 0

/-- The ordinal of an alternative. -/
def ordinalOf : (ts : Tys) → Alternative sizeOf ts → ℕ
  | .cons t _, .inl v => firstWord t v
  | .cons _ ts, .inr v => ordinalOf ts v

/-- The ordinal of an event. -/
def eventOrdinal (event : Val sizeOf commandEvent) : ℕ := ordinalOf eventTypes event

end

/-! ## What comes back -/

theorem commandEvent_small : commandEvent.small = true := by decide

theorem liveRequest_small : liveRequest.small = true := by decide

mutual

/-- A type with no request that was refused. -/
def Ty.accepted : Ty → Bool
  | .raw _ => true
  | .string => true
  | .vector _ => true
  | .optional t => t.accepted
  | .variant ts => ts.accepted
  | .fields ts => ts.accepted
  | .external => true
  | .refused _ => false

/-- Every type of a list saves what it is asked. -/
def Tys.accepted : Tys → Bool
  | .nil => true
  | .cons t ts => t.accepted && ts.accepted

end

section

variable {sizeOf : Plain → ℕ+}

mutual

theorem externals_accepted : (t : Ty) → t.accepted = true → (v : Val sizeOf t) →
    ∀ list ∈ externals false t v, list.1 = false
  | .raw _, _, v => by simp [externals]
  | .string, _, v => by simp [externals]
  | .vector _, _, v => by simp [externals]
  | .optional _, _, none => by simp [externals]
  | .optional t, h, some v => by
    simp only [externals]
    exact externals_accepted t h v
  | .variant ts, h, v => by
    simp only [externals]
    exact externalsAlternative_accepted ts h v
  | .fields ts, h, v => by
    simp only [externals]
    exact externalsFields_accepted ts h v
  | .external, _, none => by simp [externals]
  | .external, _, some hs => by simp [externals]
  | .refused _, h, _ => absurd h Bool.false_ne_true

theorem externalsFields_accepted : (ts : Tys) → ts.accepted = true → (v : Fields sizeOf ts) →
    ∀ list ∈ externalsFields false ts v, list.1 = false
  | .nil, _, v => by simp [externalsFields]
  | .cons t ts, h, v => by
    rw [Tys.accepted, Bool.and_eq_true] at h
    simp only [externalsFields, List.mem_append]
    rintro list (hlist | hlist)
    · exact externals_accepted t h.1 v.1 list hlist
    · exact externalsFields_accepted ts h.2 v.2 list hlist

theorem externalsAlternative_accepted :
    (ts : Tys) → ts.accepted = true → (v : Alternative sizeOf ts) →
    ∀ list ∈ externalsAlternative false ts v, list.1 = false
  | .cons t ts, h, .inl v => by
    rw [Tys.accepted, Bool.and_eq_true] at h
    simp only [externalsAlternative]
    exact externals_accepted t h.1 v
  | .cons t ts, h, .inr v => by
    rw [Tys.accepted, Bool.and_eq_true] at h
    simp only [externalsAlternative]
    exact externalsAlternative_accepted ts h.2 v

end

theorem load_save_liveRequest {live : Val sizeOf liveRequest}
    (hfrozen : FrozenWhereAccepted liveRequest live) (rest : Bytes) :
    load sizeOf false liveRequest (save sizeOf liveRequest live ++ rest) = some (live, rest) := by
  rw [load_save_eq_iff liveRequest_small hfrozen]
  intro hmem
  cases externals_accepted liveRequest (by decide) live _ hmem

/-- No refused request of the event has a list that names no opening. -/
def RefusedListsNameOpenings (event : Val sizeOf commandEvent) : Prop :=
  (true, []) ∉ externals false commandEvent event

/-- An event comes back as it was saved exactly when none of its refused requests has an external
list without openings. -/
theorem load_save_event_iff {event : Val sizeOf commandEvent}
    (hfrozen : FrozenWhereAccepted commandEvent event) (rest : Bytes) :
    load sizeOf false commandEvent (save sizeOf commandEvent event ++ rest) = some (event, rest)
      ↔ RefusedListsNameOpenings event :=
  load_save_eq_iff commandEvent_small hfrozen rest

end

end PineForge.Journal
