import Bingewatch.Machine.Descriptor
import Bingewatch.Machine.Registry

/-!
# The locks of the socket machine

The socket machine (`src/socket-machine.c`) has a lock for its list of sockets and one for each
socket. They are taken and released inside every call, so between the calls nobody holds them, and
a call never waits: that is `Sockets.Free`.

Two returns leave a lock behind. `destroy_sock` returns with the lock of the list when it does not
find the handle, and `udp_write` with the lock of the socket when `sendto` fails; `sock_write` then
waits for that lock itself. `locks_released_iff` says, over every sequence of calls and results of
the system calls, that these are the only ones.
-/

set_option autoImplicit false

namespace Bingewatch.Socket

open Machine

/-! ## Outcomes -/

/-- What becomes of a call: it returns; it waits for a lock that nobody is going to release; it
follows a null pointer or overflows a counter; or it has used up the given results of the system
calls and is still in its loop. -/
inductive Outcome (α : Type) where
  | returned (value : α)
  | blocked
  | undefined
  | unfinished
  deriving DecidableEq, Repr

namespace Outcome

variable {α β : Type}

/-- Go on with what a call returned. -/
def bind (outcome : Outcome α) (next : α → Outcome β) : Outcome β :=
  match outcome with
  | .returned value => next value
  | .blocked => .blocked
  | .undefined => .undefined
  | .unfinished => .unfinished

instance : Monad Outcome where
  pure := .returned
  bind := bind

@[simp] theorem returned_bind (value : α) (next : α → Outcome β) :
    (Outcome.returned value >>= next) = next value := rfl

theorem first_ne_blocked {outcome : Outcome (α × β)} (waits : outcome ≠ .blocked) :
    (do return (← outcome).1 : Outcome α) ≠ .blocked := by
  cases outcome with
  | blocked => exact absurd rfl waits
  | _ => rintro ⟨⟩

theorem first_eq_returned {outcome : Outcome (α × β)} {value : α}
    (returned : (do return (← outcome).1 : Outcome α) = .returned value) :
    ∃ rest, outcome = .returned (value, rest) := by
  cases outcome with
  | returned pair =>
      obtain rfl : pair.1 = value := Outcome.returned.inj returned
      exact ⟨pair.2, rfl⟩
  | _ => cases returned

end Outcome

/-! ## Sockets -/

/-- `enum sock_type_e`, which is an integer. -/
inductive SockType where
  | server
  | client
  | other
  deriving DecidableEq, Repr

/-- `enum sock_protocol_e`. -/
inductive SockProtocol where
  | udp
  | tcp
  | other
  deriving DecidableEq, Repr

/-- `struct sock_desc_t`. A server has a read descriptor and a client a write descriptor. -/
structure Sock where
  type : SockType := .other
  protocol : SockProtocol := .other
  payloadSize : Nat := 0
  handle : Int := 0
  inUse : Int := 0
  locked : Bool := false
  deriving DecidableEq, Repr

/-- The memory of the socket machine: the sockets by their addresses, the list `socks` and its
lock, and the handle map. -/
structure Sockets where
  sock : Nat → Sock := fun _ => {}
  top : Nat := 1
  socks : List Nat := []
  listLocked : Bool := false
  handles : HandleMap := {}
  machine : Nat := 0

namespace Sockets

variable (T : Sockets)

/-- Write a socket. -/
def store (a : Nat) (sock : Sock) : Sockets := { T with sock := Function.update T.sock a sock }

/-- `pthread_mutex_lock(&sock_list_lock)`. -/
def lockList : Outcome Sockets :=
  if T.listLocked then .blocked else .returned { T with listLocked := true }

/-- `pthread_mutex_unlock(&sock_list_lock)`. -/
def unlockList : Sockets := { T with listLocked := false }

/-- `pthread_mutex_lock(&sock->lock)`. -/
def lock (a : Nat) : Outcome Sockets :=
  if (T.sock a).locked then .blocked
  else .returned (T.store a { T.sock a with locked := true })

/-- `pthread_mutex_unlock(&sock->lock)`. -/
def unlock (a : Nat) : Sockets := T.store a { T.sock a with locked := false }

/-- `s->in_use += d`. -/
def use (a : Nat) (d : Int) : Sockets :=
  T.store a { T.sock a with inUse := (T.sock a).inUse + d }

/-- `acquire_socket`. -/
def acquireSocket (a : Nat) : Outcome Sockets := do
  let T ← T.lock a
  return (T.use a 1).unlock a

/-- `release_socket`. -/
def releaseSocket (a : Nat) : Outcome Sockets := do
  let T ← T.lock a
  return (T.use a (-1)).unlock a

/-- The socket of the list with a handle. -/
def find (h : Int) : Option Nat := T.socks.find? fun a => (T.sock a).handle = h

/-- `add_socket`. -/
def addSocket (a : Nat) : Outcome Sockets := do
  let T ← T.lockList
  return { T with socks := T.socks ++ [a] }.unlockList

/-- `get_socket`. -/
def getSocket (h : Int) : Outcome (Sockets × Option Nat) := do
  let T ← T.lockList
  return (T.unlockList, T.find h)

/-- `destroy_sock`. The loop that waits for `in_use` to become zero does not end when it is not. -/
def destroySock (h : Int) : Outcome Sockets := do
  let T ← T.lockList
  match T.find h with
  | none => return T
  | some a =>
      let T := { T with socks := T.socks.erase a }.unlockList
      if (T.sock a).inUse ≠ 0 then .unfinished
      else
        let T ← T.lockList
        return T.unlockList

/-! ## Reading and writing -/

/-- The status and the byte count that a read or a write leaves. -/
structure Transfer where
  status : IoStatus
  bytes : Nat
  deriving DecidableEq, Repr

/-- The largest `size_t`, which is what an error of `recvfrom` is stored as. -/
def sizeMax : Nat := 2 ^ 64 - 1

/-- The loop of `udp_read` over the results of `recvfrom`. The count is a `size_t`, so the test for
an error never holds. `request` is what the byte count is when the loop ends by itself. -/
def udpReadLoop (a request : Nat) : Sockets → Nat → Nat → List (Option Nat) →
    Outcome (Sockets × Transfer)
  | T, 0, _, _ => .returned (T, ⟨.success, request⟩)
  | _, _ + 1, _, [] => .unfinished
  | T, remaining + 1, total, received :: results => do
      let T ← T.lock a
      let T := T.unlock a
      let bytesRcvd := received.getD sizeMax
      if bytesRcvd = 0 then return (T, ⟨.success, total⟩)
      else
        udpReadLoop a request T ((remaining + 1 + 2 ^ 64 - bytesRcvd) % 2 ^ 64)
          ((total + bytesRcvd) % 2 ^ 64) results

/-- `udp_read`. -/
def udpRead (h : Int) (bytes : Nat) (results : List (Option Nat)) :
    Outcome (Sockets × Transfer) := do
  let (T, found) ← T.getSocket h
  match found with
  | none => return (T, ⟨.error, 0⟩)
  | some a => udpReadLoop a bytes T bytes 0 results

/-- The loop of `udp_write` over the results of `sendto`. An error ends the call there, with the
lock of the socket held. -/
def udpWriteLoop (a : Nat) : Sockets → Nat → Nat → List (Option Nat) →
    Outcome (Sockets × Transfer)
  | T, 0, written, _ => .returned (T.unlock a, ⟨.success, written⟩)
  | _, _ + 1, _, [] => .unfinished
  | T, _ + 1, _, none :: _ => .returned (T, ⟨.error, 0⟩)
  | T, remaining + 1, written, some sent :: results =>
      udpWriteLoop a T ((remaining + 1 + 2 ^ 64 - sent) % 2 ^ 64) ((written + sent) % 2 ^ 64)
        results

/-- `udp_write`. -/
def udpWrite (h : Int) (bytes : Nat) (results : List (Option Nat)) :
    Outcome (Sockets × Transfer) := do
  let (T, found) ← T.getSocket h
  match found with
  | none => return (T, ⟨.error, 0⟩)
  | some a =>
      let T ← T.lock a
      udpWriteLoop a T bytes 0 results

/-- The common body of `sock_read` and `sock_write`: the filter of a socket that has a descriptor
for the direction is called, and a descriptor that it does not have is followed all the same. -/
def sockIo (type : SockType) (udp : Sockets → Int → Nat → List (Option Nat) →
    Outcome (Sockets × Transfer)) (h : Int) (bytes : Nat) (results : List (Option Nat)) :
    Outcome (Sockets × Transfer) := do
  let (T, found) ← T.getSocket h
  match found with
  | none => return (T, ⟨.error, 0⟩)
  | some a =>
      let T ← T.acquireSocket a
      if (T.sock a).type ≠ type then .undefined
      else
        match (T.sock a).protocol with
        | .udp =>
            let (T, transfer) ← udp T (T.sock a).handle bytes results
            let T ← T.releaseSocket a
            return (T, transfer)
        | .tcp =>
            let T ← T.releaseSocket a
            return (T, ⟨.success, bytes⟩)
        | .other => .undefined

/-- `sock_read`. -/
def sockRead (h : Int) (bytes : Nat) (results : List (Option Nat)) :
    Outcome (Sockets × Transfer) :=
  T.sockIo .server udpRead h bytes results

/-- `sock_write`. -/
def sockWrite (h : Int) (bytes : Nat) (results : List (Option Nat)) :
    Outcome (Sockets × Transfer) :=
  T.sockIo .client udpWrite h bytes results

/-! ## Creating sockets -/

/-- The arguments of `create_sock`, and what it meets: whether there is memory, whether `socket`
and `bind` succeed, and whether the filters can be allocated. -/
structure Setup where
  type : SockType
  protocol : SockProtocol
  payloadSize : Nat
  memory : Bool := true
  opened : Bool := true
  bound : Bool := true
  filterMemory : Bool := true
  deriving DecidableEq, Repr

/-- `init_filters` succeeds. -/
def Setup.initFilters (setup : Setup) : Bool :=
  setup.filterMemory ∧ setup.type ≠ .other ∧ setup.protocol ≠ .other

/-- `create_sock`. -/
def createSock (setup : Setup) : Outcome (Sockets × Int) :=
  if setup.memory = false then .returned (T, 0)
  else if setup.opened = false then .returned (T, -1)
  else if setup.type = .server ∧ setup.bound = false then .returned (T, 0)
  else
    match T.handles.requestHandle T.machine with
    | none => .undefined
    | some (handles, h) =>
        let T := { T with handles := handles }
        if setup.initFilters = false then .returned (T, 0)
        else do
          let a := T.top
          let T := { T.store a {
            type := setup.type, protocol := setup.protocol, payloadSize := setup.payloadSize
            handle := h } with top := T.top + 1 }
          let T ← T.addSocket a
          return (T, h)

end Sockets

/-! ## Calls -/

/-- A call of the socket machine, with the results of the system calls that it makes. -/
inductive SockCall where
  | create (setup : Sockets.Setup)
  | read (h : Int) (bytes : Nat) (results : List (Option Nat))
  | write (h : Int) (bytes : Nat) (results : List (Option Nat))
  | destroy (h : Int)
  deriving DecidableEq, Repr

/-- What a call does. -/
def Sockets.call (T : Sockets) : SockCall → Outcome Sockets
  | .create setup => do return (← T.createSock setup).1
  | .read h bytes results => do return (← T.sockRead h bytes results).1
  | .write h bytes results => do return (← T.sockWrite h bytes results).1
  | .destroy h => T.destroySock h

/-- Nobody holds a lock. -/
def Sockets.Free (T : Sockets) : Prop := T.listLocked = false ∧ ∀ a, (T.sock a).locked = false

/-- No call of a sequence waits for a lock for ever, and every call that returns has released the
locks it took. -/
def Sockets.Released : Sockets → List SockCall → Prop
  | _, [] => True
  | T, c :: calls =>
      T.call c ≠ .blocked ∧ ∀ T', T.call c = .returned T' → T'.Free ∧ T'.Released calls

/-- The results of `sendto` come to an error before a request is sent. -/
def sendFails : Nat → List (Option Nat) → Bool
  | 0, _ => false
  | _ + 1, [] => false
  | _ + 1, none :: _ => true
  | remaining + 1, some sent :: results =>
      sendFails ((remaining + 1 + 2 ^ 64 - sent) % 2 ^ 64) results

/-- The handle is in the list of sockets when it is destroyed, and a write to a UDP client does not
come to an error of `sendto`. -/
def SockCall.Careful (T : Sockets) : SockCall → Prop
  | .destroy h => T.find h ≠ none
  | .write h bytes results =>
      ∀ a, T.find h = some a → (T.sock a).type = .client → (T.sock a).protocol = .udp →
        sendFails bytes results = false
  | _ => True

/-- Every call of a sequence is careful when its turn comes. -/
def Sockets.CarefulRun : Sockets → List SockCall → Prop
  | _, [] => True
  | T, c :: calls => c.Careful T ∧ ∀ T', T.call c = .returned T' → T'.CarefulRun calls

/-! ## What the calls do while nobody holds a lock -/

namespace Sockets

variable {T : Sockets}

/-- Between the calls nobody holds a lock, and no socket is in use. -/
structure Idle (T : Sockets) : Prop where
  list : T.listLocked = false
  free : ∀ a, (T.sock a).locked = false
  unused : ∀ a, (T.sock a).inUse = 0

theorem store_self (a : Nat) : T.store a (T.sock a) = T := by
  simp [store]

theorem store_store (a : Nat) (first second : Sock) :
    (T.store a first).store a second = T.store a second := by
  simp [store]

@[simp] theorem sock_store_self (a : Nat) (sock : Sock) : (T.store a sock).sock a = sock := by
  simp [store]

theorem lock_returned {a : Nat} (free : (T.sock a).locked = false) :
    T.lock a = .returned (T.store a { T.sock a with locked := true }) := by
  simp [lock, free]

/-- Taking the lock of a socket and releasing it changes nothing. -/
theorem lock_unlock {a : Nat} (free : (T.sock a).locked = false) :
    (T.store a { T.sock a with locked := true }).unlock a = T := by
  have same : ({ T.sock a with locked := false } : Sock) = T.sock a := by
    rw [← free]
  rw [unlock, sock_store_self, store_store, same, store_self]

theorem lockList_returned (free : T.listLocked = false) :
    T.lockList = .returned { T with listLocked := true } := by
  simp [lockList, free]

theorem getSocket_returned (h : Int) (free : T.listLocked = false) :
    T.getSocket h = .returned (T, T.find h) := by
  have same : ({ T with listLocked := true } : Sockets).unlockList = T := by
    rw [unlockList, ← free]
  rw [getSocket, lockList_returned free, Outcome.returned_bind]
  show Outcome.returned (_, T.find h) = _
  rw [same]

/-- The socket is in use by a call. -/
def busy (T : Sockets) (a : Nat) : Sockets := T.use a 1

theorem acquireSocket_returned {a : Nat} (free : (T.sock a).locked = false) :
    T.acquireSocket a = .returned (T.busy a) := by
  rw [acquireSocket, lock_returned free, Outcome.returned_bind]
  show Outcome.returned _ = _
  have same : ({ T.sock a with inUse := (T.sock a).inUse + 1, locked := false } : Sock) =
      { T.sock a with inUse := (T.sock a).inUse + 1 } := by
    rw [← free]
  simp only [use, unlock, busy, sock_store_self, store_store, same]

theorem busy_locked {a : Nat} (free : (T.sock a).locked = false) :
    ((T.busy a).sock a).locked = false := by
  simp [busy, use, free]

theorem releaseSocket_busy {a : Nat} (free : (T.sock a).locked = false) :
    (T.busy a).releaseSocket a = .returned T := by
  rw [releaseSocket, lock_returned (busy_locked free), Outcome.returned_bind]
  show Outcome.returned _ = _
  have same : ({ T.sock a with inUse := (T.sock a).inUse + 1 + -1, locked := false } : Sock) =
      T.sock a := by
    rw [← free, Int.add_neg_cancel_right]
  simp only [use, unlock, busy, sock_store_self, store_store, same, store_self]

theorem find_busy (a : Nat) (h : Int) : (T.busy a).find h = T.find h := by
  have same : ∀ b, ((T.busy a).sock b).handle = (T.sock b).handle := by
    intro b
    by_cases here : b = a
    · subst here
      simp [busy, use]
    · simp [busy, use, store, here]
  show T.socks.find? _ = T.socks.find? _
  simp only [same]

theorem find_eq_self {h : Int} {a : Nat} (found : T.find h = some a) : (T.sock a).handle = h := by
  have matched := List.find?_some found
  simpa using matched

/-- The loop of `udp_read` leaves the locks alone. -/
theorem udpReadLoop_outcome {a request remaining total : Nat} {results : List (Option Nat)}
    (free : (T.sock a).locked = false) :
    udpReadLoop a request T remaining total results = .unfinished ∨
      ∃ transfer, udpReadLoop a request T remaining total results = .returned (T, transfer) := by
  induction results generalizing remaining total with
  | nil =>
      cases remaining with
      | zero => exact .inr ⟨_, rfl⟩
      | succ remaining => exact .inl rfl
  | cons received results ih =>
      cases remaining with
      | zero => exact .inr ⟨_, rfl⟩
      | succ remaining =>
          rw [udpReadLoop, lock_returned free, Outcome.returned_bind]
          simp only [lock_unlock free]
          split
          · exact .inr ⟨_, rfl⟩
          · exact ih

/-- The loop of `udp_write` releases the lock of the socket, unless it comes to an error. -/
theorem udpWriteLoop_outcome (a remaining written : Nat) (results : List (Option Nat)) :
    if sendFails remaining results then
      udpWriteLoop a T remaining written results = .returned (T, ⟨.error, 0⟩)
    else
      udpWriteLoop a T remaining written results = .unfinished ∨
        ∃ transfer,
          udpWriteLoop a T remaining written results = .returned (T.unlock a, transfer) := by
  induction results generalizing remaining written with
  | nil =>
      cases remaining with
      | zero => exact .inr ⟨_, rfl⟩
      | succ remaining => exact .inl rfl
  | cons sent results ih =>
      cases remaining with
      | zero => exact .inr ⟨_, rfl⟩
      | succ remaining =>
          cases sent with
          | none => rfl
          | some sent => exact ih _ _

theorem getSocket_busy {h : Int} {a : Nat} (list : T.listLocked = false)
    (found : T.find h = some a) : (T.busy a).getSocket h = .returned (T.busy a, some a) := by
  have list' : (T.busy a).listLocked = false := list
  rw [getSocket_returned h list', find_busy, found]

theorem udpRead_busy {h : Int} {a bytes : Nat} {results : List (Option Nat)}
    (list : T.listLocked = false) (free : (T.sock a).locked = false) (found : T.find h = some a) :
    udpRead (T.busy a) h bytes results = .unfinished ∨
      ∃ transfer, udpRead (T.busy a) h bytes results = .returned (T.busy a, transfer) := by
  have body : udpRead (T.busy a) h bytes results =
      udpReadLoop a bytes (T.busy a) bytes 0 results := by
    rw [udpRead, getSocket_busy list found]
    rfl
  rw [body]
  exact udpReadLoop_outcome (busy_locked free)

theorem udpWrite_busy {h : Int} {a : Nat} (bytes : Nat) (results : List (Option Nat))
    (list : T.listLocked = false) (free : (T.sock a).locked = false) (found : T.find h = some a) :
    if sendFails bytes results then
      ∃ T', udpWrite (T.busy a) h bytes results = .returned (T', ⟨.error, 0⟩) ∧
        (T'.sock a).locked = true
    else
      udpWrite (T.busy a) h bytes results = .unfinished ∨
        ∃ transfer, udpWrite (T.busy a) h bytes results = .returned (T.busy a, transfer) := by
  let held := (T.busy a).store a { (T.busy a).sock a with locked := true }
  have body : udpWrite (T.busy a) h bytes results = udpWriteLoop a held bytes 0 results := by
    rw [udpWrite, getSocket_busy list found]
    show ((T.busy a).lock a >>= _) = _
    rw [lock_returned (busy_locked free)]
    rfl
  have outcome := udpWriteLoop_outcome (T := held) a bytes 0 results
  have released : held.unlock a = T.busy a := lock_unlock (busy_locked free)
  rw [released] at outcome
  rw [body]
  split
  · next fails =>
      rw [if_pos fails] at outcome
      exact ⟨_, outcome, by simp [held]⟩
  · next succeeds =>
      rw [if_neg succeeds] at outcome
      exact outcome

section Io

variable {type : SockType}
  {udp : Sockets → Int → Nat → List (Option Nat) → Outcome (Sockets × Transfer)} {h : Int}
  {bytes : Nat} {results : List (Option Nat)}

/-- A read or a write whose filter leaves the locks alone. -/
theorem sockIo_outcome (idle : T.Idle)
    (calm : ∀ a, T.find h = some a → (T.sock a).type = type → (T.sock a).protocol = .udp →
      udp (T.busy a) h bytes results = .unfinished ∨
        ∃ transfer, udp (T.busy a) h bytes results = .returned (T.busy a, transfer)) :
    T.sockIo type udp h bytes results ≠ .blocked ∧
      ∀ T' transfer, T.sockIo type udp h bytes results = .returned (T', transfer) → T' = T := by
  rw [sockIo, getSocket_returned h idle.list, Outcome.returned_bind]
  cases found : T.find h with
  | none =>
      refine ⟨by rintro ⟨⟩, ?_⟩
      rintro T' transfer ⟨⟩
      rfl
  | some a =>
      have free := idle.free a
      have released := releaseSocket_busy free
      have sameType : ((T.busy a).sock a).type = (T.sock a).type := by simp [busy, use]
      have sameProtocol : ((T.busy a).sock a).protocol = (T.sock a).protocol := by
        simp [busy, use]
      have sameHandle : ((T.busy a).sock a).handle = h := by
        rw [← find_eq_self found]
        simp [busy, use]
      simp only [acquireSocket_returned free, Outcome.returned_bind, sameType, sameProtocol,
        sameHandle]
      split
      · exact ⟨by rintro ⟨⟩, by rintro T' transfer ⟨⟩⟩
      · next isType =>
          split
          · next isUdp =>
              rcases calm a found (not_not.mp isType) isUdp with unfinished | ⟨transfer, returned⟩
              · rw [unfinished]
                exact ⟨by rintro ⟨⟩, by rintro T' transfer ⟨⟩⟩
              · rw [returned, Outcome.returned_bind, released, Outcome.returned_bind]
                refine ⟨by rintro ⟨⟩, ?_⟩
                rintro T' transfer' ⟨⟩
                rfl
          · rw [released, Outcome.returned_bind]
            refine ⟨by rintro ⟨⟩, ?_⟩
            rintro T' transfer ⟨⟩
            rfl
          · exact ⟨by rintro ⟨⟩, by rintro T' transfer ⟨⟩⟩

/-- A read or a write whose filter returns with the lock of the socket waits for it. -/
theorem sockIo_blocked (idle : T.Idle) {a : Nat} {T' : Sockets} {transfer : Transfer}
    (found : T.find h = some a) (isType : (T.sock a).type = type)
    (isUdp : (T.sock a).protocol = .udp)
    (returned : udp (T.busy a) h bytes results = .returned (T', transfer))
    (held : (T'.sock a).locked = true) : T.sockIo type udp h bytes results = .blocked := by
  have sameType : ((T.busy a).sock a).type = (T.sock a).type := by simp [busy, use]
  have sameProtocol : ((T.busy a).sock a).protocol = (T.sock a).protocol := by simp [busy, use]
  have sameHandle : ((T.busy a).sock a).handle = h := by
    rw [← find_eq_self found]
    simp [busy, use]
  have waits : T'.releaseSocket a = .blocked := by
    rw [releaseSocket, lock, if_pos held]
    rfl
  rw [sockIo, getSocket_returned h idle.list, Outcome.returned_bind, found]
  simp only [acquireSocket_returned (idle.free a), Outcome.returned_bind, sameType, sameProtocol,
    sameHandle, isType, isUdp, ne_eq, not_true_eq_false, if_false, returned, waits]
  rfl

end Io

/-! ## Whole runs -/

theorem Idle.isFree (idle : T.Idle) : T.Free := ⟨idle.list, idle.free⟩

theorem idle_new : ({} : Sockets).Idle := ⟨rfl, fun _ => rfl, fun _ => rfl⟩

theorem createSock_outcome (idle : T.Idle) (setup : Setup) :
    T.createSock setup ≠ .blocked ∧
      ∀ T' h, T.createSock setup = .returned (T', h) → T'.Idle := by
  unfold createSock
  split
  · exact ⟨by rintro ⟨⟩, by rintro T' h ⟨⟩; exact idle⟩
  split
  · exact ⟨by rintro ⟨⟩, by rintro T' h ⟨⟩; exact idle⟩
  split
  · exact ⟨by rintro ⟨⟩, by rintro T' h ⟨⟩; exact idle⟩
  split
  · exact ⟨by rintro ⟨⟩, by rintro T' h ⟨⟩⟩
  · next handles h requested =>
      simp only
      split
      · refine ⟨by rintro ⟨⟩, ?_⟩
        rintro T' h' ⟨⟩
        exact ⟨idle.list, idle.free, idle.unused⟩
      · rw [addSocket, lockList_returned (by exact idle.list)]
        refine ⟨by rintro ⟨⟩, ?_⟩
        rintro T' h' ⟨⟩
        refine ⟨rfl, fun b => ?_, fun b => ?_⟩
        · by_cases here : b = T.top
          · simp [unlockList, store, here]
          · simp [unlockList, store, here, idle.free]
        · by_cases here : b = T.top
          · simp [unlockList, store, here]
          · simp [unlockList, store, here, idle.unused]

theorem destroySock_found (idle : T.Idle) {h : Int} {a : Nat} (found : T.find h = some a) :
    T.destroySock h = .returned { T with socks := T.socks.erase a } := by
  have found' : ({ T with listLocked := true } : Sockets).find h = some a := found
  rw [destroySock, lockList_returned idle.list, Outcome.returned_bind, found']
  have unused : (T.sock a).inUse = 0 := idle.unused a
  simp only [unlockList, unused, ne_eq, not_true_eq_false, if_false]
  rw [lockList_returned rfl, Outcome.returned_bind]
  show Outcome.returned _ = _
  rw [← idle.list]

theorem destroySock_missing (idle : T.Idle) {h : Int} (missing : T.find h = none) :
    T.destroySock h = .returned { T with listLocked := true } := by
  have missing' : ({ T with listLocked := true } : Sockets).find h = none := missing
  rw [destroySock, lockList_returned idle.list, Outcome.returned_bind, missing']
  rfl

/-- A careful call does not wait, and leaves the sockets idle. -/
theorem call_of_careful (idle : T.Idle) {c : SockCall} (careful : c.Careful T) :
    T.call c ≠ .blocked ∧ ∀ T', T.call c = .returned T' → T'.Idle := by
  cases c with
  | create setup =>
      obtain ⟨waits, left⟩ := createSock_outcome idle setup
      refine ⟨Outcome.first_ne_blocked waits, fun T' returned => ?_⟩
      obtain ⟨h, returned⟩ := Outcome.first_eq_returned returned
      exact left T' h returned
  | read h bytes results =>
      have calm : ∀ a, T.find h = some a → (T.sock a).type = .server →
          (T.sock a).protocol = .udp → udpRead (T.busy a) h bytes results = .unfinished ∨
            ∃ transfer, udpRead (T.busy a) h bytes results = .returned (T.busy a, transfer) :=
        fun a found _ _ => udpRead_busy idle.list (idle.free a) found
      obtain ⟨waits, left⟩ := sockIo_outcome idle calm
      refine ⟨Outcome.first_ne_blocked waits, fun T' returned => ?_⟩
      obtain ⟨transfer, returned⟩ := Outcome.first_eq_returned returned
      rw [left T' transfer returned]
      exact idle
  | write h bytes results =>
      have calm : ∀ a, T.find h = some a → (T.sock a).type = .client →
          (T.sock a).protocol = .udp → udpWrite (T.busy a) h bytes results = .unfinished ∨
            ∃ transfer, udpWrite (T.busy a) h bytes results = .returned (T.busy a, transfer) := by
        intro a found isClient isUdp
        have outcome := udpWrite_busy bytes results idle.list (idle.free a) found
        rwa [if_neg (by simp [careful a found isClient isUdp])] at outcome
      obtain ⟨waits, left⟩ := sockIo_outcome idle calm
      refine ⟨Outcome.first_ne_blocked waits, fun T' returned => ?_⟩
      obtain ⟨transfer, returned⟩ := Outcome.first_eq_returned returned
      rw [left T' transfer returned]
      exact idle
  | destroy h =>
      obtain ⟨a, found⟩ := Option.ne_none_iff_exists'.mp careful
      rw [call, destroySock_found idle found]
      refine ⟨by rintro ⟨⟩, ?_⟩
      rintro T' ⟨⟩
      exact ⟨idle.list, idle.free, idle.unused⟩

/-- A call that is not careful waits for ever, or leaves a lock behind. -/
theorem call_of_not_careful (idle : T.Idle) {c : SockCall} (careless : ¬c.Careful T) :
    T.call c = .blocked ∨ ∃ T', T.call c = .returned T' ∧ ¬T'.Free := by
  cases c with
  | create setup => exact absurd trivial careless
  | read h bytes results => exact absurd trivial careless
  | write h bytes results =>
      simp only [SockCall.Careful, not_forall] at careless
      obtain ⟨a, found, isClient, isUdp, fails⟩ := careless
      have outcome := udpWrite_busy bytes results idle.list (idle.free a) found
      rw [if_pos (by simpa using fails)] at outcome
      obtain ⟨T', returned, held⟩ := outcome
      left
      rw [call, sockWrite, sockIo_blocked idle found isClient isUdp returned held]
      rfl
  | destroy h =>
      have missing : T.find h = none := not_not.mp careless
      refine .inr ⟨_, destroySock_missing idle missing, fun free => ?_⟩
      cases free.1

end Sockets

theorem released_iff_careful {T : Sockets} (idle : T.Idle) (calls : List SockCall) :
    T.Released calls ↔ T.CarefulRun calls := by
  induction calls generalizing T with
  | nil => exact Iff.rfl
  | cons c calls ih =>
      constructor
      · rintro ⟨waits, left⟩
        have careful : c.Careful T := by
          by_contra careless
          rcases Sockets.call_of_not_careful idle careless with blocked | ⟨T', returned, held⟩
          · exact waits blocked
          · exact held (left T' returned).1
        refine ⟨careful, fun T' returned => ?_⟩
        exact (ih ((Sockets.call_of_careful idle careful).2 T' returned)).mp (left T' returned).2
      · rintro ⟨careful, later⟩
        obtain ⟨waits, left⟩ := Sockets.call_of_careful idle careful
        refine ⟨waits, fun T' returned => ⟨(left T' returned).isFree, ?_⟩⟩
        exact (ih (left T' returned)).mpr (later T' returned)

/-- **When the socket machine releases its locks.** In a sequence of calls, with any handles and any
results of the system calls, no call waits for a lock for ever and every call that returns has
released the locks it took, if and only if no destroy is given a handle that is not in the list of
sockets and no write to a UDP client comes to an error of `sendto`. -/
theorem locks_released_iff (calls : List SockCall) :
    Sockets.Released {} calls ↔ Sockets.CarefulRun {} calls :=
  released_iff_careful Sockets.idle_new calls

/-- The destroy of a handle that is not in the list leaves the list locked, and the next call waits
for ever. -/
theorem destroy_unknown_keeps_lock :
    ¬Sockets.Released {} [.destroy 1, .destroy 1] ∧
      ∃ T, Sockets.call {} (.destroy 1) = .returned T ∧ T.call (.destroy 1) = .blocked := by
  refine ⟨fun released => ?_, _, rfl, rfl⟩
  cases (released.2 _ rfl).1.1

/-- A write whose first `sendto` fails waits for the lock that it holds itself. -/
theorem failed_send_waits :
    ∃ T, Sockets.call {} (.create { type := .client, protocol := .udp, payloadSize := 512 }) =
        .returned T ∧ T.call (.write 1 4 [none]) = .blocked :=
  ⟨_, rfl, rfl⟩

end Bingewatch.Socket
