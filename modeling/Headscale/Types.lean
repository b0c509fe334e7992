import Headscale.Table

/-!
# Headscale.Types

The records `hscontrol/db/node.go` reads and writes — `types.Node`,
`types.Route`, `types.User` and the change notification `types.StateUpdate` —
with the fields its functions use, and the errors they return.

Conventions of the model:

* an instant (`time.Time`) is an `Int` of nanoseconds since the Unix epoch, and
  a `time.Duration` an `Int` of nanoseconds; `zeroTime` is Go's zero `time.Time`;
* a key (`key.MachinePublic`, `key.NodePublic`) is a `Nat`, the zero key `0`.
  Keys are compared through their `String()`, which is injective, so the model
  compares the keys themselves;
* an IP address is a `Nat`; a routed prefix (`netip.Prefix`) keeps its address
  family, address and length, which is all `==` on `netip.Prefix` compares.
-/

namespace Headscale

/-! ## Time -/

/-- Go's zero `time.Time` (January 1, year 1, UTC), what `IsZero` tests for. -/
def zeroTime : Int := -62135596800 * 1000000000

/-- `time.Unix(0, 0)`. -/
def unixEpoch : Int := 0

/-! ## Routes -/

/-- A routed prefix (`netip.Prefix`). -/
structure Prefix where
  v6 : Bool
  addr : Nat
  bits : Nat
deriving DecidableEq, Repr

/-- `tsaddr.AllIPv4()` or `tsaddr.AllIPv6()`: `0.0.0.0/0` and `::/0`. -/
def Prefix.isExit (p : Prefix) : Bool := p.addr == 0 && p.bits == 0

/-- A row of the `routes` table (`types.Route`). -/
structure Route where
  id : Nat
  nodeId : Nat
  ipPrefix : Prefix
  advertised : Bool
  enabled : Bool
  isPrimary : Bool
deriving DecidableEq, Repr

/-- `Route.IsExitRoute`. -/
def Route.isExitRoute (r : Route) : Bool := r.ipPrefix.isExit

instance : Keyed Route where
  key := Route.id
  withKey r i := { r with id := i }
  key_withKey _ _ := rfl

/-! ## Users and nodes -/

/-- A row of the `users` table (`types.User`). -/
structure User where
  id : Nat
  name : String
deriving DecidableEq, Repr

/-- A row of the `nodes` table (`types.Node`).  `ephemeral` is whether the node
registered with an ephemeral pre-auth key, what `IsEphemeral` reads. -/
structure Node where
  id : Nat
  machineKey : Nat
  nodeKey : Nat
  hostname : String
  givenName : String
  userId : Nat
  ipAddresses : List Nat
  forcedTags : List String
  expiry : Option Int
  lastSeen : Option Int
  ephemeral : Bool
  registerMethod : String
deriving DecidableEq, Repr

instance : Keyed Node where
  key := Node.id
  withKey n i := { n with id := i }
  key_withKey _ _ := rfl

@[simp] theorem key_node (n : Node) : Keyed.key n = n.id := rfl

@[simp] theorem key_route (r : Route) : Keyed.key r = r.id := rfl

/-- `Node.IsExpired` at the instant `now` that its `time.Since` reads: an unset
or zero expiry never expires. -/
def Node.isExpired (now : Int) (n : Node) : Bool :=
  match n.expiry with
  | none => false
  | some e => e != zeroTime && decide (e < now)

/-! ## Change notifications -/

/-- `types.StateUpdateType`; the zero value is `StateFullUpdate`. -/
inductive StateUpdateType where
  | fullUpdate
  | peerChanged
  | peerChangedPatch
  | peerRemoved
  | selfUpdate
  | derpUpdated
deriving DecidableEq, Repr

/-- `tailcfg.PeerChange`, with the fields the expiry sweep sets. -/
structure PeerChange where
  nodeId : Nat
  keyExpiry : Option Int
deriving DecidableEq, Repr

/-- `types.StateUpdate`.  A changed node travels with the `Routes` association
loaded on it. -/
structure StateUpdate where
  type : StateUpdateType := .fullUpdate
  changeNodes : List (Node × List Route) := []
  changePatches : List PeerChange := []
  removed : List Nat := []
  message : String := ""
deriving DecidableEq, Repr

/-! ## Errors -/

/-- The errors node.go returns.  `wrapped msg e` is `fmt.Errorf("msg: %w", e)`. -/
inductive Err where
  /-- `ErrNodeNotFound`, "node not found". -/
  | nodeNotFound
  /-- `ErrNodeRouteIsNotAvailable`, "route is not available on node". -/
  | nodeRouteIsNotAvailable
  /-- `ErrNodeNotFoundRegistrationCache`, "node not found in registration cache". -/
  | nodeNotFoundRegistrationCache
  /-- `ErrCouldNotConvertNodeInterface`, "failed to convert node interface". -/
  | couldNotConvertNodeInterface
  /-- `ErrDifferentRegisteredUser`, "node was previously registered with a
  different user". -/
  | differentRegisteredUser
  /-- `ErrUserNotFound`, from the user directory. -/
  | userNotFound
  /-- `util.CheckForFQDNRules` rejected the name. -/
  | invalidName (name : String)
  /-- `netip.ParsePrefix` rejected the string. -/
  | badPrefix (s : String)
  /-- `gorm.ErrRecordNotFound`. -/
  | recordNotFound
  /-- `getAvailableIPs` found no free address in a configured prefix
  (`AddressPoolExhausted` in the spec). -/
  | addressPoolExhausted
  /-- Any other failure of the store. -/
  | store
  /-- `fmt.Errorf("route (%s) is not available on node %s: %w", node.Hostname,
  newRoute, ErrNodeRouteIsNotAvailable)`. -/
  | routeNotAvailable (hostname : String) (route : Prefix)
  | wrapped (msg : String) (cause : Err)
deriving DecidableEq, Repr

end Headscale
