import Headscale.Store

/-!
# Headscale.Registration

Identity and registration: the single-column setters of node.go (`SetTags`,
`RenameNode`, `NodeSetExpiry`, `UpdateLastSeen`, `NodeSetNodeKey`,
`NodeSetMachineKey`), `GenerateGivenName`, `DeleteNode`, and the two
registration paths `RegisterNode` and `RegisterNodeFromAuthCallback`, with the
address allocator `getAvailableIPs` they call.

Each function returns what it returns in Go together with the transaction's
view of the store.  The failures of the store it meets are arguments: a `Bool`
for a statement run once, a function of the row for a statement run in a loop.

The spec lemmas at the end (`registerNode_ok`, `registerNodeFromAuthCallback_ok`,
`registerNodeFromAuthCallback_cache`) say once what a registration can do;
later proofs use them and never unfold the functions.
-/

namespace Headscale

/-! ## Helpers of the `util` package -/

/-- `util.StringOrPrefixListContains`. -/
def stringOrPrefixListContains {α : Type} [DecidableEq α] (ts : List α) (t : α) : Bool :=
  ts.any (· = t)

/-- Modelled from the spec: `util.CheckForFQDNRules` is not under src/.  A name
passes when it has at most 63 bytes, is lowercase, and holds only `a-z`, `0-9`,
`-` and `.`. -/
def checkForFQDNRules (name : String) : Bool :=
  decide (name.utf8ByteSize ≤ 63) && name.data.map Char.toLower == name.data &&
    name.data.all fun c => c.isLower || c.isDigit || c == '-' || c == '.'

/-! ## Single-column setters -/

/-- The `Update`/`Updates` every setter issues on the node with id `nodeId`:
it writes the given columns, unless the store fails. -/
def updateNodeColumns (db : Db) (nodeId : Nat) (cs : List Column) (fails : Bool) : Except Err Db :=
  if fails then .error .store else .ok (cs.foldl (fun d c => d.updateNode nodeId c) db)

/-- `NodeSetExpiry`. -/
def nodeSetExpiry (db : Db) (nodeId : Nat) (expiry : Int) (fails : Bool) : Except Err Db :=
  updateNodeColumns db nodeId [.expiry expiry] fails

/-- `UpdateLastSeen`. -/
def updateLastSeen (db : Db) (nodeId : Nat) (lastSeen : Int) (fails : Bool) : Except Err Db :=
  updateNodeColumns db nodeId [.lastSeen lastSeen] fails

/-- `NodeSetNodeKey`: `Updates` with a struct writes its non-zero fields only, so
the zero key writes nothing. -/
def nodeSetNodeKey (db : Db) (node : Node) (nodeKey : Nat) (fails : Bool) : Except Err Db :=
  updateNodeColumns db node.id (if nodeKey = 0 then [] else [.nodeKey nodeKey]) fails

/-- `NodeSetMachineKey`, with the same zero-field rule. -/
def nodeSetMachineKey (db : Db) (node : Node) (machineKey : Nat) (fails : Bool) : Except Err Db :=
  updateNodeColumns db node.id (if machineKey = 0 then [] else [.machineKey machineKey]) fails

/-- `RenameNode`: the new name must pass the DNS rules, and a failed update is
wrapped. -/
def renameNode (db : Db) (nodeId : Nat) (newName : String) (fails : Bool) : Except Err Db :=
  if checkForFQDNRules newName then
    match updateNodeColumns db nodeId [.givenName newName] fails with
    | .ok db' => .ok db'
    | .error e => .error (.wrapped "failed to rename node in the database" e)
  else .error (.invalidName newName)

/-- A successful rename passed the DNS rules and wrote the name. -/
theorem renameNode_ok {db db' : Db} {nodeId : Nat} {newName : String} {fails : Bool}
    (h : renameNode db nodeId newName fails = .ok db') :
    checkForFQDNRules newName = true ∧ db' = db.updateNode nodeId (.givenName newName) := by
  unfold renameNode updateNodeColumns at h
  split at h
  · split at h
    · rename_i hu
      split at hu
      · cases hu
      · cases hu; cases h; exact ⟨‹_›, rfl⟩
    · cases h
  · cases h

/-- The loop of `SetTags`: each tag not collected yet is appended. -/
def dedupTags : List String → List String → List String
  | acc, [] => acc
  | acc, tag :: rest =>
    dedupTags (if stringOrPrefixListContains acc tag then acc else acc ++ [tag]) rest

/-- `SetTags`: an empty list changes nothing; otherwise the deduplicated list is
written. -/
def setTags (db : Db) (nodeId : Nat) (tags : List String) (fails : Bool) : Except Err Db :=
  if tags.length = 0 then .ok db
  else
    match updateNodeColumns db nodeId [.forcedTags (dedupTags [] tags)] fails with
    | .ok db' => .ok db'
    | .error e => .error (.wrapped "failed to update tags for node in the database" e)

/-- A successful `SetTags` wrote nothing, or the deduplicated tags. -/
theorem setTags_ok {db db' : Db} {nodeId : Nat} {tags : List String} {fails : Bool}
    (h : setTags db nodeId tags fails = .ok db') :
    db' = db ∨ updateNodeColumns db nodeId [.forcedTags (dedupTags [] tags)] fails = .ok db' := by
  unfold setTags at h
  split at h
  · exact .inl (Except.ok.inj h).symm
  · split at h
    · rename_i hu; cases h; exact .inr hu
    · cases h

/-! ## Given names -/

/-- `util.LabelHostnameLength`: the longest DNS label. -/
def labelHostnameLength : Nat := 63

/-- `NodeGivenNameHashLength`. -/
def nodeGivenNameHashLength : Nat := 8

/-- `NodeGivenNameTrimSize`. -/
def nodeGivenNameTrimSize : Nat := 2

/-- Modelled from the spec: `util.NormalizeToFQDNRulesConfigFromViper` is not
under src/.  It brings a hostname to the DNS label rules: lowercase, each
character outside `a-z`, `0-9`, `-` and `.` replaced by `-`; a name longer than
a label (`labelHostnameLength` characters) fails the rules (`InvalidName`). -/
def normalizeToFQDNRules (suppliedName : String) : Except Err String :=
  let name := suppliedName.data.map fun c =>
    let c := c.toLower
    if c.isLower || c.isDigit || c == '-' || c == '.' then c else '-'
  if name.length ≤ labelHostnameLength then .ok ⟨name⟩ else .error (.invalidName suppliedName)

/-- Modelled from the spec: `util.GenerateRandomStringDNSSafe` is not under
src/.  It returns a random string of `size` DNS-safe characters, lowercase
letters, digits and `-`, or fails; `isRandomStringDNSSafe size s` says that `s`
is one of the strings it can return. -/
def isRandomStringDNSSafe (size : Nat) (s : String) : Bool :=
  s.length == size && s.data.all fun c => c.isLower || c.isDigit || c == '-'

/-- `generateGivenName`: the supplied name normalized by `normalize`
(`util.NormalizeToFQDNRulesConfigFromViper`, not under src/) and, with
`randomSuffix`, trimmed and followed by `-` and the random string `suffix`
(`util.GenerateRandomStringDNSSafe`, which may fail).  A normalized name is
ASCII, so its length in bytes is its length in characters. -/
def generateGivenName (normalize : String → Except Err String) (suppliedName : String)
    (randomSuffix : Bool) (suffix : Except Err String) : Except Err String :=
  match normalize suppliedName with
  | .error e => .error e
  | .ok normalizedHostname =>
    if randomSuffix then
      let trimmedHostnameLength :=
        labelHostnameLength - nodeGivenNameHashLength - nodeGivenNameTrimSize
      let trimmed := if normalizedHostname.length > trimmedHostnameLength then
        normalizedHostname.take trimmedHostnameLength else normalizedHostname
      match suffix with
      | .error e => .error e
      | .ok suffix => .ok (trimmed ++ "-" ++ suffix)
    else .ok normalizedHostname

/-- `listNodesByGivenName`: the nodes holding the name, in the order the store
scans them. -/
def listNodesByGivenName (o : ScanOrder) (db : Db) (givenName : String) : List Node :=
  o.arrange (db.nodes.rows.filter (·.givenName = givenName))

/-- `GenerateGivenName`, the exported function over the helper above: the
normalized name, unless the last listed node holding it has another machine
key, and then a suffixed name.  `listFails` is the failure of the listing. -/
def GenerateGivenName (normalize : String → Except Err String) (o : ScanOrder) (db : Db) (mkey : Nat)
    (suppliedName : String) (listFails : Bool) (suffix : Except Err String) : Except Err String :=
  match generateGivenName normalize suppliedName false suffix with
  | .error e => .error e
  | .ok givenName =>
    if listFails then .error .store
    else
      match ((listNodesByGivenName o db givenName).filter (·.givenName = givenName)).getLast? with
      | some nodeFound =>
        if nodeFound.machineKey ≠ mkey then generateGivenName normalize suppliedName true suffix
        else .ok givenName
      | none => .ok givenName

/-! ## Deletion -/

/-- `DeleteNode`: the node's routes go first, then the node row; a failure keeps
what was deleted before it. -/
def deleteNode (db : Db) (node : Node) (f : DeleteFaults) : Except Err Unit × Db :=
  match deleteNodeRoutes db node f with
  | (.error e, db') => (.error e, db')
  | (.ok (), db') => if f.node then (.error .store, db') else (.ok (), db'.eraseNode node.id)

/-! ## Address allocation -/

/-- A configured prefix of node addresses, by its usable addresses
`first, first + 1, …, first + size - 1`. -/
structure IPPool where
  first : Nat
  size : Nat

/-- Modelled from the spec: `getAvailableIPs` (ip.go) is not under src/.  For
each configured prefix, the lowest address of it that no stored node holds;
`AddressPoolExhausted` when it has none left. -/
def getAvailableIPs : List IPPool → Db → Except Err (List Nat)
  | [], _ => .ok []
  | p :: ps, db =>
    match (List.range' p.first p.size).find? (fun ip => db.nodes.rows.all (ip ∉ ·.ipAddresses)) with
    | none => .error .addressPoolExhausted
    | some ip => (getAvailableIPs ps db).map (ip :: ·)

/-- What the theorems assume of the allocator: on success it returns one address
per configured prefix (`count` of them), none held by a stored node. -/
structure AllocSpec (alloc : Db → Except Err (List Nat)) (count : Nat) : Prop where
  length : ∀ {db ips}, alloc db = .ok ips → ips.length = count
  fresh : ∀ {db ips}, alloc db = .ok ips → ∀ ip ∈ ips, ∀ n ∈ db.nodes.rows, ip ∉ n.ipAddresses

/-- What a successful allocation returns: one address per configured prefix,
none held by a stored node. -/
theorem getAvailableIPs_ok {pools : List IPPool} {db : Db} {ips : List Nat}
    (h : getAvailableIPs pools db = .ok ips) :
    ips.length = pools.length ∧ ∀ ip ∈ ips, ∀ n ∈ db.nodes.rows, ip ∉ n.ipAddresses := by
  induction pools generalizing ips with
  | nil => cases h; simp
  | cons p ps ih =>
    simp only [getAvailableIPs] at h
    split at h
    · cases h
    · rename_i ip hfind
      cases hrest : getAvailableIPs ps db with
      | error e => simp [hrest, Except.map] at h
      | ok rest =>
        simp only [hrest, Except.map, Except.ok.injEq] at h
        subst h
        have hip := List.find?_some hfind
        simp only [List.all_eq_true, decide_eq_true_eq] at hip
        obtain ⟨hlen, hfresh⟩ := ih hrest
        refine ⟨by simp [hlen], fun a ha n hn => ?_⟩
        rcases List.mem_cons.1 ha with rfl | ha
        · exact hip n hn
        · exact hfresh a ha n hn

/-- The spec's allocator meets that assumption. -/
theorem getAvailableIPs_allocSpec (pools : List IPPool) :
    AllocSpec (getAvailableIPs pools) pools.length :=
  ⟨fun h => (getAvailableIPs_ok h).1, fun h => (getAvailableIPs_ok h).2⟩

/-! ## Registration -/

/-- `RegisterNode` of a node value carrying the routes `routes`: a node that
already holds addresses (a re-registration) is saved as it is; any other one
gets its addresses from the allocator first.  Either way `tx.Save` upserts the
routes with the node. -/
def registerNode (alloc : Db → Except Err (List Nat)) (db : Db) (node : Node) (routes : List Route)
    (saveFails : Bool) : Except Err (Node × Db) :=
  if node.ipAddresses.length > 0 then
    if saveFails then .error (.wrapped "failed register existing node in the database" .store)
    else .ok (db.saveNode node routes)
  else
    match alloc db with
    | .error e => .error e
    | .ok ips =>
      if saveFails then .error (.wrapped "failed register(save) node in the database" .store)
      else .ok (db.saveNode { node with ipAddresses := ips } routes)

/-- The pending node as `RegisterNodeFromAuthCallback` binds it before
registering: the approving user, the registration method, and the requested
expiry when there is one. -/
def authorize (registrationNode : Node) (user : User) (nodeExpiry : Option Int)
    (registrationMethod : String) : Node :=
  { registrationNode with
    userId := user.id
    registerMethod := registrationMethod
    expiry := if nodeExpiry.isSome then nodeExpiry else registrationNode.expiry }

/-- `RegisterNodeFromAuthCallback`.  The cache entry is deleted once the
registration succeeds, inside the caller's transaction. -/
def registerNodeFromAuthCallback (alloc : Db → Except Err (List Nat)) (db : Db) (cache : Cache)
    (mkey : Nat) (userName : String) (nodeExpiry : Option Int) (registrationMethod : String)
    (saveFails : Bool) : Except Err (Node × Db) × Cache :=
  match cache.get mkey with
  | none => (.error .nodeNotFoundRegistrationCache, cache)
  | some .other => (.error .couldNotConvertNodeInterface, cache)
  | some (.node registrationNode routes) =>
    match getUser db userName with
    | .error e =>
      (.error (.wrapped "failed to find user in register node from auth callback" e), cache)
    | .ok user =>
      if registrationNode.id ≠ 0 ∧ registrationNode.userId ≠ user.id then
        (.error .differentRegisteredUser, cache)
      else
        match registerNode alloc db (authorize registrationNode user nodeExpiry registrationMethod)
            routes saveFails with
        | .ok r => (.ok r, cache.erase mkey)
        | .error e => (.error e, cache)

/-! ## Spec lemmas -/

section Spec

variable {alloc : Db → Except Err (List Nat)} {db db' : Db} {node n : Node} {routes : List Route}
  {saveFails : Bool}

/-- A successful `RegisterNode` saved the node with the addresses it carried,
or, when it carried none, with the allocator's, and the routes it carried. -/
theorem registerNode_ok (h : registerNode alloc db node routes saveFails = .ok (n, db')) :
    ∃ ips, (n, db') = db.saveNode { node with ipAddresses := ips } routes ∧
      (node.ipAddresses ≠ [] → ips = node.ipAddresses) ∧
      (node.ipAddresses = [] → alloc db = .ok ips) := by
  unfold registerNode at h
  split at h
  · rename_i hlen
    have hne : node.ipAddresses ≠ [] := List.ne_nil_of_length_pos hlen
    split at h
    · cases h
    · exact ⟨node.ipAddresses, by simpa using h.symm, fun _ => rfl, fun h' => absurd h' hne⟩
  · rename_i hlen
    have hnil : node.ipAddresses = [] := by simpa using hlen
    split at h
    · cases h
    · rename_i ips hips
      split at h
      · cases h
      · exact ⟨ips, (Except.ok.inj h).symm, fun h' => absurd hnil h', fun _ => hips⟩

variable {cache cache' : Cache} {mkey : Nat} {userName : String} {nodeExpiry : Option Int}
  {method : String}

/-- A successful `RegisterNodeFromAuthCallback` found a pending node for the
machine key and a user for the name, passed the owner check, registered the
bound node, and deleted the entry. -/
theorem registerNodeFromAuthCallback_ok
    (h : registerNodeFromAuthCallback alloc db cache mkey userName nodeExpiry method saveFails =
      (.ok (n, db'), cache')) :
    ∃ c rs u, cache.get mkey = some (.node c rs) ∧ getUser db userName = .ok u ∧
      (c.id ≠ 0 → c.userId = u.id) ∧
      registerNode alloc db (authorize c u nodeExpiry method) rs saveFails = .ok (n, db') ∧
      cache' = cache.erase mkey := by
  unfold registerNodeFromAuthCallback at h
  split at h
  · cases h
  · cases h
  · rename_i c rs hc
    split at h
    · cases h
    · rename_i u hu
      split at h
      · cases h
      · rename_i hcheck
        split at h
        · rename_i r hr
          simp only [Prod.mk.injEq, Except.ok.injEq] at h
          obtain ⟨rfl, rfl⟩ := h
          exact ⟨c, rs, u, hc, hu, fun h0 => by_contra fun hne => hcheck ⟨h0, hne⟩, hr, rfl⟩
        · cases h

/-- `RegisterNodeFromAuthCallback` touches the cache only to delete the entry of
a registration that succeeded. -/
theorem registerNodeFromAuthCallback_cache (alloc : Db → Except Err (List Nat)) (db : Db)
    (cache : Cache) (mkey : Nat) (userName : String) (nodeExpiry : Option Int) (method : String)
    (saveFails : Bool) :
    let r := registerNodeFromAuthCallback alloc db cache mkey userName nodeExpiry method saveFails
    r.2 = match r.1 with
      | .ok _ => cache.erase mkey
      | .error _ => cache := by
  unfold registerNodeFromAuthCallback
  split
  · rfl
  · rfl
  · split
    · rfl
    · split
      · rfl
      · split <;> rfl

/-- A pending copy (non-zero id) owned by another user than the approving one
is refused, and the cache is left as it is. -/
theorem registerNodeFromAuthCallback_differentUser {c : Node} {rs : List Route} {u : User}
    (hc : cache.get mkey = some (.node c rs)) (hu : getUser db userName = .ok u) (hid : c.id ≠ 0)
    (hne : c.userId ≠ u.id) :
    registerNodeFromAuthCallback alloc db cache mkey userName nodeExpiry method saveFails =
      (.error .differentRegisteredUser, cache) := by
  simp [registerNodeFromAuthCallback, hc, hu, hid, hne]

/-- A successful approval of a pending copy (non-zero id) stores, under its id,
the bound copy with the addresses it carried, or with the allocator's when it
carried none. -/
theorem registerNodeFromAuthCallback_stores {c : Node} {rs : List Route}
    (hc : cache.get mkey = some (.node c rs)) (hid : c.id ≠ 0)
    (h : registerNodeFromAuthCallback alloc db cache mkey userName nodeExpiry method saveFails =
      (.ok (n, db'), cache')) :
    ∃ u ips, getUser db userName = .ok u ∧ c.userId = u.id ∧
      db'.nodes.get c.id = some { authorize c u nodeExpiry method with ipAddresses := ips } ∧
      (c.ipAddresses ≠ [] → ips = c.ipAddresses) ∧ (c.ipAddresses = [] → alloc db = .ok ips) := by
  obtain ⟨c', rs', u, hc', hu, hcheck, hreg, -⟩ := registerNodeFromAuthCallback_ok h
  obtain ⟨rfl, rfl⟩ : c = c' ∧ rs = rs' := by rw [hc] at hc'; cases hc'; exact ⟨rfl, rfl⟩
  obtain ⟨ips, hsave, hne, hnil⟩ := registerNode_ok hreg
  refine ⟨u, ips, hu, hcheck hid, ?_, hne, hnil⟩
  have hdb : db' = (db.saveNode { authorize c u nodeExpiry method with ipAddresses := ips } rs).2 :=
    congrArg Prod.snd hsave
  subst hdb
  rw [Db.get_saveNode, if_pos] <;> simp [Db.saveNode_fst, authorize, hid]

end Spec

end Headscale
