import Headscale.System
import Mathlib.Data.String.Basic

/-!
# Headscale.GivenNames

What `GenerateGivenName` returns.

The name is the supplied hostname as the normalizer leaves it, or, when the
stored node that `GenerateGivenName` finds holding that name has another
machine key, its first 53 characters followed by `-` and an 8-character random
string.  The normalizer and the random-string generator are not under src/;
`NormalizeSpec` and `isRandomStringDNSSafe` state what the spec says of them,
and `normalizeToFQDNRules` meets the former.

* `generateGivenName_passes_fqdn_rules`: on both paths the name passes
  `CheckForFQDNRules`, the check `RenameNode` applies: the normalized name has
  at most 63 safe characters, and the suffixed one at most 53 + 1 + 8;
* `givenName_decided_by_last_holder`: the loop over the nodes holding the name
  keeps the last one listed, and only its machine key decides.  The listing has
  no `ORDER BY`, so which holder comes last is the store's scan order: when
  several nodes hold the name, the answer depends on it
  (`givenName_depends_on_scan_order`);
* `givenName_rejects_only_long_names`: the call fails only when the normalizer
  rejects the hostname, which the spec's normalizer does for every hostname of
  more than 63 characters (`InvalidName`), or when the listing or the suffix
  generator fails.  A long hostname is rejected before the only trimming step,
  which sits on the suffixed path (`generateGivenName_rejects_long_hostname`).
-/

namespace Headscale

/-- A character `CheckForFQDNRules` accepts: `a-z`, `0-9`, `-` or `.`. -/
def fqdnSafe (c : Char) : Bool := c.isLower || c.isDigit || c == '-' || c == '.'

/-- What the theorems assume of the normalizer: a name it returns has at most
`labelHostnameLength` characters, each one `CheckForFQDNRules` accepts. -/
def NormalizeSpec (normalize : String → Except Err String) : Prop :=
  ∀ s t, normalize s = .ok t → t.length ≤ labelHostnameLength ∧ t.data.all fqdnSafe

theorem normalizeToFQDNRules_spec : NormalizeSpec normalizeToFQDNRules := by
  intro s t h
  unfold normalizeToFQDNRules at h
  dsimp only at h
  split at h
  · cases h
    refine ⟨‹_›, List.all_eq_true.2 fun c hc => ?_⟩
    obtain ⟨c₀, -, rfl⟩ := List.mem_map.1 hc
    split
    · assumption
    · decide
  · cases h

/-! ## Characters -/

theorem toNat_of_fqdnSafe {c : Char} (h : fqdnSafe c) :
    c.toNat ≤ 122 ∧ (c.toNat < 65 ∨ 90 < c.toNat) := by
  simp only [fqdnSafe, Char.isLower, Char.isDigit, Bool.or_eq_true, Bool.and_eq_true,
    decide_eq_true_eq, beq_iff_eq, UInt32.le_def, BitVec.le_def] at h
  rcases h with ((h | h) | rfl) | rfl
  · simp [Char.toNat, UInt32.toNat] at h ⊢; omega
  · simp [Char.toNat, UInt32.toNat] at h ⊢; omega
  · decide
  · decide

/-- A character of the safe set takes one byte and is its own lowercase. -/
theorem utf8Size_toLower_of_fqdnSafe {c : Char} (h : fqdnSafe c) :
    c.utf8Size = 1 ∧ c.toLower = c := by
  obtain ⟨hle, hnu⟩ := toNat_of_fqdnSafe h
  constructor
  · unfold Char.utf8Size
    rw [if_pos]
    simp only [UInt32.le_def, BitVec.le_def]
    simp [Char.toNat, UInt32.toNat] at hle ⊢
    omega
  · unfold Char.toLower
    rw [if_neg]
    omega

theorem utf8ByteSize_go_of_fqdnSafe : ∀ {cs : List Char}, cs.all fqdnSafe →
    String.utf8ByteSize.go cs = cs.length
  | [], _ => rfl
  | c :: cs, h => by
    rw [List.all_cons, Bool.and_eq_true] at h
    simp only [String.utf8ByteSize.go, utf8ByteSize_go_of_fqdnSafe h.2,
      (utf8Size_toLower_of_fqdnSafe h.1).1, List.length_cons]

/-- A name of at most 63 safe characters passes `CheckForFQDNRules`. -/
theorem checkForFQDNRules_of_fqdnSafe {name : String} (hs : name.data.all fqdnSafe)
    (hl : name.length ≤ labelHostnameLength) : checkForFQDNRules name := by
  obtain ⟨cs⟩ := name
  have hlower : cs.map Char.toLower = cs :=
    (List.map_congr_left fun c hc =>
      (utf8Size_toLower_of_fqdnSafe (List.all_eq_true.1 hs c hc)).2).trans (List.map_id _)
  simp only [checkForFQDNRules, String.utf8ByteSize, utf8ByteSize_go_of_fqdnSafe hs, hlower,
    beq_self_eq_true, Bool.and_true, Bool.and_eq_true, decide_eq_true_eq]
  exact ⟨hl, hs⟩

/-! ## Given names -/

theorem length_eq_length_data (s : String) : s.length = s.data.length := rfl

/-- Trimming to `n` characters keeps at most `n`, all from the name. -/
theorem trim_fqdnSafe {g : String} (hs : g.data.all fqdnSafe) (n : Nat) :
    (if g.length > n then g.take n else g).length ≤ n ∧
      (if g.length > n then g.take n else g).data.all fqdnSafe := by
  split
  · rw [length_eq_length_data, String.data_take]
    exact ⟨by simp, List.all_eq_true.2 fun c hc =>
      List.all_eq_true.1 hs c ((List.take_sublist _ _).subset hc)⟩
  · exact ⟨by omega, hs⟩

variable {normalize : String → Except Err String} {suffix : Except Err String}

/-- `generateGivenName` returns a name of at most 63 safe characters, on both
paths, when the normalizer meets its spec and the suffix is one the DNS-safe
generator can return. -/
theorem generateGivenName_fqdnSafe (hN : NormalizeSpec normalize)
    (hS : ∀ x, suffix = .ok x → isRandomStringDNSSafe nodeGivenNameHashLength x)
    {suppliedName name : String} {randomSuffix : Bool}
    (h : generateGivenName normalize suppliedName randomSuffix suffix = .ok name) :
    name.length ≤ labelHostnameLength ∧ name.data.all fqdnSafe := by
  unfold generateGivenName at h
  split at h
  · cases h
  rename_i g hg
  obtain ⟨hl, hs⟩ := hN _ _ hg
  split at h
  · dsimp only at h
    rcases hx : suffix with e | x <;> rw [hx] at h
    · cases h
    cases h
    have hx' : x.length = nodeGivenNameHashLength ∧
        x.data.all fun c => c.isLower || c.isDigit || c == '-' := by
      simpa [isRandomStringDNSSafe] using hS x hx
    obtain ⟨htl, hts⟩ := trim_fqdnSafe hs
      (labelHostnameLength - nodeGivenNameHashLength - nodeGivenNameTrimSize)
    refine ⟨?_, ?_⟩
    · rw [String.length_append, String.length_append, hx'.1]
      simp only [labelHostnameLength, nodeGivenNameHashLength, nodeGivenNameTrimSize] at htl ⊢
      have : "-".length = 1 := rfl
      omega
    · simp only [String.data_append, List.all_append, Bool.and_eq_true]
      refine ⟨⟨hts, rfl⟩, List.all_eq_true.2 fun c hc => ?_⟩
      simp only [fqdnSafe, List.all_eq_true.1 hx'.2 c hc, Bool.true_or]
  · cases h
    exact ⟨hl, hs⟩

/-- A `GenerateGivenName` that succeeds returns what `generateGivenName` returns
on one of its two paths. -/
theorem generateGivenName_of_GenerateGivenName {o : ScanOrder} {db : Db} {mkey : Nat}
    {suppliedName name : String} {listFails : Bool}
    (h : GenerateGivenName normalize o db mkey suppliedName listFails suffix = .ok name) :
    ∃ randomSuffix, generateGivenName normalize suppliedName randomSuffix suffix = .ok name := by
  unfold GenerateGivenName at h
  split at h
  · cases h
  rename_i g hg
  split at h
  · cases h
  split at h
  · split at h
    · exact ⟨true, h⟩
    · cases h; exact ⟨false, hg⟩
  · cases h; exact ⟨false, hg⟩

/-- Every name `GenerateGivenName` returns passes `CheckForFQDNRules`, on both
paths, for every normalizer meeting `NormalizeSpec` and every string the
DNS-safe generator can return. -/
theorem generateGivenName_passes_fqdn_rules (hN : NormalizeSpec normalize) (o : ScanOrder) (db : Db)
    (mkey : Nat) (suppliedName : String) (listFails : Bool)
    (hS : ∀ x, suffix = .ok x → isRandomStringDNSSafe nodeGivenNameHashLength x) {givenName : String}
    (h : GenerateGivenName normalize o db mkey suppliedName listFails suffix = .ok givenName) :
    checkForFQDNRules givenName :=
  have ⟨_, hg⟩ := generateGivenName_of_GenerateGivenName h
  have ⟨hl, hs⟩ := generateGivenName_fqdnSafe hN hS hg
  checkForFQDNRules_of_fqdnSafe hs hl

/-! ## Which holder decides -/

/-- The plain path returns the normalized name. -/
theorem generateGivenName_plain {suppliedName g : String} (hg : normalize suppliedName = .ok g) :
    generateGivenName normalize suppliedName false suffix = .ok g := by
  simp only [generateGivenName, hg, Bool.false_eq_true, if_false]

/-- The suffixed path over a normalized name `g`: at most 53 characters of `g`,
`-`, and the string the generator returned. -/
theorem generateGivenName_suffixed {suppliedName g : String} (hg : normalize suppliedName = .ok g) :
    generateGivenName normalize suppliedName true suffix =
      suffix.map fun x => g.take (min g.length 53) ++ "-" ++ x := by
  have htrim : (if g.length > labelHostnameLength - nodeGivenNameHashLength - nodeGivenNameTrimSize
      then g.take (labelHostnameLength - nodeGivenNameHashLength - nodeGivenNameTrimSize) else g) =
      g.take (min g.length 53) := by
    simp only [labelHostnameLength, nodeGivenNameHashLength, nodeGivenNameTrimSize]
    split
    · rw [Nat.min_eq_right (by omega)]
    · rename_i h
      refine String.ext ?_
      rw [String.data_take, List.take_of_length_le]
      rw [← length_eq_length_data]
      omega
  unfold generateGivenName
  rw [hg]
  dsimp only
  rw [htrim]
  cases suffix <;> rfl

/-- The loop re-checks the name of each node the listing returns, which every
one of them holds. -/
theorem filter_listNodesByGivenName (o : ScanOrder) (db : Db) (g : String) :
    (listNodesByGivenName o db g).filter (·.givenName = g) =
      o.arrange (db.nodes.rows.filter (·.givenName = g)) :=
  List.filter_eq_self.2 fun n hn => by
    simpa using (List.mem_filter.1 (o.mem_arrange.1 hn)).2

/-- For a supplied name whose normalization `g` succeeds and a listing that
does not fail, whatever order the store lists the stored holders of `g` in:
`GenerateGivenName` returns `g` when no node holds it or when the holder listed
last has the requesting machine key, and otherwise the first 53 characters of
`g`, `-`, and the generated string. -/
theorem givenName_decided_by_last_holder (o : ScanOrder) (db : Db) (mkey : Nat)
    {suppliedName g : String} (hg : normalize suppliedName = .ok g) (suffix : Except Err String) :
    ((o.arrange (db.nodes.rows.filter (·.givenName = g))).getLast? = none →
      GenerateGivenName normalize o db mkey suppliedName false suffix = .ok g) ∧
    ∀ n, (o.arrange (db.nodes.rows.filter (·.givenName = g))).getLast? = some n →
      (n.machineKey = mkey → GenerateGivenName normalize o db mkey suppliedName false suffix = .ok g) ∧
      (n.machineKey ≠ mkey → GenerateGivenName normalize o db mkey suppliedName false suffix =
        suffix.map fun x => g.take (min g.length 53) ++ "-" ++ x) := by
  unfold GenerateGivenName
  rw [generateGivenName_plain hg]
  simp only [Bool.false_eq_true, if_false, filter_listNodesByGivenName]
  refine ⟨fun h => by rw [h], fun n h => ⟨fun hk => by simp [h, hk], fun hk => ?_⟩⟩
  rw [h]
  exact (if_pos hk).trans (generateGivenName_suffixed hg)

/-! ## Failures -/

/-- The spec's normalizer rejects exactly the names longer than a label, with
`InvalidName`: every other name is brought to the rules, whatever its
characters. -/
theorem normalizeToFQDNRules_eq_error {suppliedName : String} {e : Err} :
    normalizeToFQDNRules suppliedName = .error e ↔
      labelHostnameLength < suppliedName.length ∧ e = .invalidName suppliedName := by
  unfold normalizeToFQDNRules
  dsimp only
  rw [length_eq_length_data]
  split <;> rename_i h <;> rw [List.length_map] at h
  · exact ⟨nofun, fun h' => absurd h (not_le.2 h'.1)⟩
  · exact ⟨fun h' => by cases h'; exact ⟨not_le.1 h, rfl⟩, fun h' => h'.2 ▸ rfl⟩

/-- `GenerateGivenName` fails only with the normalizer's error, the listing's,
or the suffix generator's. -/
theorem errors_of_GenerateGivenName {o : ScanOrder} {db : Db} {mkey : Nat} {suppliedName : String}
    {listFails : Bool} {e : Err}
    (h : GenerateGivenName normalize o db mkey suppliedName listFails suffix = .error e) :
    normalize suppliedName = .error e ∨ listFails = true ∨ suffix = .error e := by
  rcases hg : normalize suppliedName with e' | g
  · -- the normalizer's error is returned as it is
    simp only [GenerateGivenName, generateGivenName, hg] at h
    exact .inl h
  cases listFails
  · -- past the listing, only the suffixed path can fail, and only with the suffix's error
    simp only [GenerateGivenName, generateGivenName_plain hg, Bool.false_eq_true, if_false] at h
    split at h
    · split at h
      · rw [generateGivenName_suffixed hg] at h
        cases suffix <;> cases h
        exact .inr (.inr rfl)
      · cases h
    · cases h
  · exact .inr (.inl rfl)

/-- `GenerateGivenName` over the spec's normalizer fails only on a hostname of
more than 63 characters, with `InvalidName`, or when the listing or the suffix
generator fails; and every such hostname is rejected, whatever the store, the
listing and the suffix. -/
theorem givenName_rejects_only_long_names (o : ScanOrder) (db : Db) (mkey : Nat)
    (suppliedName : String) (listFails : Bool) (suffix : Except Err String) :
    (∀ e, GenerateGivenName normalizeToFQDNRules o db mkey suppliedName listFails suffix = .error e →
      (labelHostnameLength < suppliedName.length ∧ e = .invalidName suppliedName) ∨
        listFails = true ∨ suffix = .error e) ∧
    (labelHostnameLength < suppliedName.length →
      GenerateGivenName normalizeToFQDNRules o db mkey suppliedName listFails suffix =
        .error (.invalidName suppliedName)) := by
  refine ⟨fun e h => (errors_of_GenerateGivenName h).imp_left normalizeToFQDNRules_eq_error.1,
    fun hl => ?_⟩
  simp only [GenerateGivenName, generateGivenName, normalizeToFQDNRules_eq_error.2 ⟨hl, rfl⟩]

/-! ## Samples -/

/-- The laptop, stored under the name `laptop` with machine key 7. -/
def laptopDb : Db :=
  (sampleRegistry.run sampleEnv [.registerNode (.fresh laptop) false true]).db

/-- A phone with machine key 5 that calls itself `Laptop` gets a suffixed name,
which passes the DNS rules. -/
theorem generateGivenName_passes_fqdn_rules_phone :
    NormalizeSpec normalizeToFQDNRules ∧
      (∀ x, (.ok "k3x9p2ab" : Except Err String) = .ok x →
        isRandomStringDNSSafe nodeGivenNameHashLength x) ∧
      GenerateGivenName normalizeToFQDNRules .byId laptopDb 5 "Laptop" false (.ok "k3x9p2ab") =
        .ok "laptop-k3x9p2ab" ∧
      checkForFQDNRules "laptop-k3x9p2ab" :=
  have hS : ∀ x, (.ok "k3x9p2ab" : Except Err String) = .ok x →
      isRandomStringDNSSafe nodeGivenNameHashLength x := by
    intro x h; cases h; decide
  have h : GenerateGivenName normalizeToFQDNRules .byId laptopDb 5 "Laptop" false (.ok "k3x9p2ab") =
      .ok "laptop-k3x9p2ab" := rfl
  ⟨normalizeToFQDNRules_spec, hS, h,
    generateGivenName_passes_fqdn_rules normalizeToFQDNRules_spec .byId laptopDb 5 "Laptop" false hS h⟩

/-- Two nodes named `laptop`: one with machine key 5, then the laptop with its
key 7. -/
def sharedNameDb : Db :=
  (sampleRegistry.run sampleEnv [.registerNode (.fresh { laptop with machineKey := 5 }) false true,
    .registerNode (.fresh laptop) false true]).db

/-- A store that lists rows in the reverse of their id order. -/
def ScanOrder.reversed : ScanOrder := ⟨List.reverse, List.reverse_perm⟩

theorem givenName_decided_by_last_holder_laptop :
    normalizeToFQDNRules "laptop" = .ok "laptop" ∧
      ((ScanOrder.reversed.arrange (sharedNameDb.nodes.rows.filter (·.givenName = "laptop"))).getLast? =
          none →
        GenerateGivenName normalizeToFQDNRules .reversed sharedNameDb 7 "laptop" false (.ok "k3x9p2ab") =
          .ok "laptop") ∧
      ∀ n, (ScanOrder.reversed.arrange
          (sharedNameDb.nodes.rows.filter (·.givenName = "laptop"))).getLast? = some n →
        (n.machineKey = 7 →
          GenerateGivenName normalizeToFQDNRules .reversed sharedNameDb 7 "laptop" false
            (.ok "k3x9p2ab") = .ok "laptop") ∧
        (n.machineKey ≠ 7 →
          GenerateGivenName normalizeToFQDNRules .reversed sharedNameDb 7 "laptop" false
            (.ok "k3x9p2ab") =
            (Except.ok "k3x9p2ab").map fun x => "laptop".take (min "laptop".length 53) ++ "-" ++ x) :=
  have hg : normalizeToFQDNRules "laptop" = .ok "laptop" := rfl
  ⟨hg, givenName_decided_by_last_holder .reversed sharedNameDb 7 hg _⟩

/-- Node 1 holds `laptop` with machine key 5, and node 2, the laptop, holds it
with key 7.  The laptop gets `laptop` unchanged when the store lists the two in
id order, and a suffixed name when it lists them the other way round. -/
theorem givenName_depends_on_scan_order :
    (sharedNameDb.nodes.get 1).map (fun n => (n.givenName, n.machineKey)) = some ("laptop", 5) ∧
      (sharedNameDb.nodes.get 2).map (fun n => (n.givenName, n.machineKey)) = some ("laptop", 7) ∧
      GenerateGivenName normalizeToFQDNRules .byId sharedNameDb 7 "laptop" false (.ok "k3x9p2ab") =
        .ok "laptop" ∧
      GenerateGivenName normalizeToFQDNRules .reversed sharedNameDb 7 "laptop" false
        (.ok "k3x9p2ab") = .ok "laptop-k3x9p2ab" :=
  ⟨by decide, by decide, rfl, rfl⟩

/-- A hostname of 64 characters. -/
def longHostname : String := ⟨List.replicate 64 'a'⟩

/-- Neither the listing nor the suffix generator fails, yet the hostname is
rejected. -/
theorem generateGivenName_rejects_long_hostname :
    GenerateGivenName normalizeToFQDNRules .byId laptopDb 5 longHostname false (.ok "k3x9p2ab") =
      .error (.invalidName longHostname) :=
  rfl

end Headscale
