import Headscale.Registration

/-!
# Headscale.Sweeps

The two lifecycle sweeps of node.go, `ExpireEphemeralNodes` and
`ExpireExpiredNodes`.  Neither returns an error: a failure met part-way is
logged, and the writes made before it stay in the transaction, which the
caller commits.

The nodes come in the order the store scans them (`ScanOrder`), an argument
of each sweep.  `time.Now()` is read once per checked node.  Each node is listed at most once
per call, so the reading at the check of node `i` is a function of `i`
(`now i`, `ExpiryClock.check i`), and every clock the sweep can run under is
one such function; `ExpiryClock.started` is the reading taken before the scan.
-/

namespace Headscale

/-! ## Ephemeral sweep -/

/-- The test `ExpireEphemeralNodes` applies to a node at its check: it is
ephemeral, was seen, and was last seen longer than the threshold ago. -/
def ephemeralExpired (now inactivityThreshhold : Int) (node : Node) : Bool :=
  node.ephemeral &&
    match node.lastSeen with
    | none => false
    | some t => decide (t + inactivityThreshhold < now)

/-- The failures the ephemeral sweep can meet: listing the users, listing one
user's nodes, and the steps of deleting a node (by node id). -/
structure EphemeralFaults where
  listUsers : Bool := false
  listNodes : User → Bool := fun _ => false
  delete : Nat → DeleteFaults := fun _ => {}

/-- The inner loop over one user's nodes: a node that passes the test is added
to `expired` and then deleted; a failed deletion is logged and the loop goes
on. -/
def expireUserNodes (now : Nat → Int) (inactivityThreshhold : Int) (f : Nat → DeleteFaults) :
    List Node → Db → List Nat → Db × List Nat
  | [], db, expired => (db, expired)
  | node :: rest, db, expired =>
    if ephemeralExpired (now node.id) inactivityThreshhold node then
      expireUserNodes now inactivityThreshhold f rest (deleteNode db node (f node.id)).2
        (expired ++ [node.id])
    else expireUserNodes now inactivityThreshhold f rest db expired

/-- The outer loop over the users; a user whose nodes cannot be listed stops
the sweep (`none`), keeping the deletions made for the users before. -/
def expireUsers (o : ScanOrder) (now : Nat → Int) (inactivityThreshhold : Int)
    (f : EphemeralFaults) : List User → Db → List Nat → Option (List Nat) × Db
  | [], db, expired => (some expired, db)
  | user :: rest, db, expired =>
    match (if f.listNodes user then .error .store else listNodesByUser o db user.name) with
    | .error _ => (none, db)
    | .ok nodes =>
      let r := expireUserNodes now inactivityThreshhold f.delete nodes db expired
      expireUsers o now inactivityThreshhold f rest r.1 r.2

/-- `ExpireEphemeralNodes`. -/
def expireEphemeralNodes (o : ScanOrder) (now : Nat → Int) (inactivityThreshhold : Int)
    (f : EphemeralFaults) (db : Db) : (StateUpdate × Bool) × Db :=
  if f.listUsers then (({}, false), db)
  else
    match expireUsers o now inactivityThreshhold f db.users db [] with
    | (none, db') => (({}, false), db')
    | (some expired, db') =>
      if expired.length > 0 then (({ type := .peerRemoved, removed := expired }, true), db')
      else (({}, false), db')

/-- The store after the ephemeral sweep: the one the user loop leaves, unless
the users could not be listed. -/
theorem expireEphemeralNodes_snd (o : ScanOrder) (now : Nat → Int) (inactivityThreshhold : Int)
    (f : EphemeralFaults) (db : Db) :
    (expireEphemeralNodes o now inactivityThreshhold f db).2 =
      if f.listUsers then db else (expireUsers o now inactivityThreshhold f db.users db []).2 := by
  unfold expireEphemeralNodes
  split
  · rfl
  · rcases expireUsers o now inactivityThreshhold f db.users db [] with ⟨_ | expired, db'⟩
    · rfl
    · dsimp only; split <;> rfl

/-! ## Expiry sweep -/

/-- The clock readings of one `ExpireExpiredNodes` call: `started`, taken
before the scan, and for the node with id `i` the reading of its `IsExpired`
check and the one written as its new expiry. -/
structure ExpiryClock where
  started : Int
  check : Nat → Int
  write : Nat → Int

/-- The failures the expiry sweep can meet: listing the nodes, and updating one
node (by id). -/
structure ExpiryFaults where
  listNodes : Bool := false
  update : Nat → Bool := fun _ => false

/-- `node.Expiry.After(lastCheck)`. -/
def expiryAfter (lastCheck : Int) (node : Node) : Bool :=
  match node.expiry with
  | none => false
  | some e => decide (lastCheck < e)

/-- The loop of `ExpireExpiredNodes`: a node expired at its check whose expiry
is after `lastCheck` gets a patch carrying its loaded expiry, then its expiry
is set to the clock; a failed update is logged. -/
def expireNodes (clk : ExpiryClock) (lastCheck : Int) (fails : Nat → Bool) :
    List Node → Db → List PeerChange → Db × List PeerChange
  | [], db, expired => (db, expired)
  | node :: rest, db, expired =>
    if node.isExpired (clk.check node.id) && expiryAfter lastCheck node then
      expireNodes clk lastCheck fails rest
        (if fails node.id then db else db.updateNode node.id (.expiry (clk.write node.id)))
        (expired ++ [{ nodeId := node.id, keyExpiry := node.expiry }])
    else expireNodes clk lastCheck fails rest db expired

/-- `ExpireExpiredNodes`: the cursor for the next call, the notification, and
whether there is one.  A failed listing returns the Unix epoch as the cursor. -/
def expireExpiredNodes (o : ScanOrder) (clk : ExpiryClock) (lastCheck : Int) (f : ExpiryFaults)
    (db : Db) : (Int × StateUpdate × Bool) × Db :=
  if f.listNodes then ((unixEpoch, {}, false), db)
  else
    let r := expireNodes clk lastCheck f.update (listNodes o db) db []
    if r.2.length > 0 then
      ((clk.started, { type := .peerChangedPatch, changePatches := r.2 }, true), r.1)
    else ((clk.started, {}, false), r.1)

/-- The store after the expiry sweep: the one its loop leaves, unless the nodes
could not be listed. -/
theorem expireExpiredNodes_snd (o : ScanOrder) (clk : ExpiryClock) (lastCheck : Int)
    (f : ExpiryFaults) (db : Db) :
    (expireExpiredNodes o clk lastCheck f db).2 =
      if f.listNodes then db else (expireNodes clk lastCheck f.update (listNodes o db) db []).1 := by
  unfold expireExpiredNodes
  split
  · rfl
  · dsimp only; split <;> rfl

end Headscale
