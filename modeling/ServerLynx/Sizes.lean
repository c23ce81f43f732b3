import Mathlib.Data.UInt
import ServerLynx.IoRun
import ServerLynx.Setup

/-!
# Sizes and counts (`svl_service_config_setup`, `svl_service_setup`, `svl_link_list_setup`, `svl_service_io_thread`)

The counts and sizes are `size_t`: products and sums of them are taken modulo 2 ^ 64, and nothing checks for that.
They are compared here with the natural numbers that they stand for.
-/

namespace ServerLynx

/-- The sizes of the types that the service acquires arrays of, in bytes. -/
structure TypeSizes where
  tnEventBase : UInt64
  tnCmdBase : UInt64
  writeReq : UInt64
  link : UInt64
  tnEventBase_pos : 0 < tnEventBase.toNat
  tnCmdBase_pos : 0 < tnCmdBase.toNat
  writeReq_pos : 0 < writeReq.toNat

/-- A product that does not reach 2 ^ 64 is the product of the natural numbers. -/
private theorem toNat_mul_of_lt {a b : UInt64} {x y : Nat} (ha : a.toNat = x) (hb : b.toNat = y) (h : x * y < 2 ^ 64) :
    (a * b).toNat = x * y := by
  rw [UInt64.toNat_mul, ha, hb, Nat.mod_eq_of_lt h]

private theorem toNat_add_of_lt {a b : UInt64} {x y : Nat} (ha : a.toNat = x) (hb : b.toNat = y) (h : x + y < 2 ^ 64) :
    (a + b).toNat = x + y := by
  rw [UInt64.toNat_add, ha, hb, Nat.mod_eq_of_lt h]

private theorem toNat_half {a : UInt64} {x : Nat} (ha : a.toNat = x) : (a >>> 1).toNat = x / 2 := by
  rw [UInt64.toNat_shiftRight, ha]
  exact Nat.shiftRight_eq_div_pow x 1

private theorem le_sizeMax (a : UInt64) : a.toNat ≤ sizeMax := Nat.le_sub_one_of_lt a.toNat_lt

private theorem pos_of_ne_zero {a : UInt64} (h : a ≠ 0) : 0 < a.toNat := by
  refine Nat.pos_of_ne_zero fun h0 => h (UInt64.toNat_inj.1 ?_)
  simpa using h0

/-- Sizes of the types, of a hundred bytes or so -/
def someSizes : TypeSizes := ⟨64, 64, 128, 256, by decide, by decide, by decide⟩

/-! ### The estimate of the heap -/

/-- `svl_service_cfg_t` -/
structure ServiceCfg where
  linkConcurrency : UInt64
  linkBufferMult : UInt64
  linkBufferOutboundCount : UInt64
  linkBufferOutboundSize : UInt64
  linkBufferInboundCount : UInt64
  linkBufferInboundSize : UInt64
  eventMult : UInt64
  eventCount : UInt64
  cmdMult : UInt64
  cmdCount : UInt64
  writeReqMult : UInt64
  writeReqCount : UInt64
  totalHeapSize : UInt64
  deriving DecidableEq

/-- `svl_service_config_default_instance` -/
def svlServiceConfigDefaultInstance : ServiceCfg where
  linkConcurrency := 100
  linkBufferMult := 4
  linkBufferOutboundCount := 0
  linkBufferOutboundSize := 65536
  linkBufferInboundCount := 0
  linkBufferInboundSize := 65536
  eventMult := 4
  eventCount := 0
  cmdMult := 4
  cmdCount := 0
  writeReqMult := 4
  writeReqCount := 0
  totalHeapSize := 0

/-- `svl_service_config_setup` -/
def svlServiceConfigSetup (s : TypeSizes) (cfg : ServiceCfg) : Option ServiceCfg := do
  guard (cfg.linkConcurrency ≠ 0)
  guard (cfg.linkBufferMult ≠ 0)
  guard (cfg.linkBufferOutboundSize ≠ 0)
  guard (cfg.linkBufferInboundSize ≠ 0)
  guard (cfg.eventMult ≠ 0)
  guard (cfg.cmdMult ≠ 0)
  guard (cfg.writeReqMult ≠ 0)
  let cfg := { cfg with linkBufferInboundCount := cfg.linkBufferMult * cfg.linkConcurrency }
  let cfg := { cfg with linkBufferOutboundCount := cfg.linkBufferMult * cfg.linkConcurrency }
  let cfg := { cfg with eventCount := cfg.eventMult * cfg.linkConcurrency }
  let cfg := { cfg with cmdCount := cfg.cmdMult * cfg.linkConcurrency }
  let cfg := { cfg with writeReqCount := cfg.writeReqMult * cfg.linkConcurrency }
  let total := 0
  let total := total + cfg.linkBufferOutboundSize * cfg.linkBufferOutboundCount
  let total := total + cfg.linkBufferInboundSize * cfg.linkBufferInboundCount
  let total := total + cfg.eventCount * s.tnEventBase
  let total := total + cfg.cmdCount * s.tnCmdBase
  let total := total + cfg.writeReqCount * s.writeReq
  let total := total + (total >>> 1)
  some { cfg with totalHeapSize := total }

/-- The copy of the default instance with `link_concurrency` set -/
def ServiceCfg.forMaxCcu (maxCcu : UInt64) : ServiceCfg :=
  { svlServiceConfigDefaultInstance with linkConcurrency := maxCcu }

/-- `svl_service_config_setup_default` -/
def svlServiceConfigSetupDefault (s : TypeSizes) (maxCcu : UInt64) : Option ServiceCfg := do
  guard (maxCcu ≠ 0)
  svlServiceConfigSetup s (.forMaxCcu maxCcu)

namespace ServiceCfg

variable (s : TypeSizes) (cfg : ServiceCfg)

/-- The product of a multiplier and `link_concurrency`, as a natural number. -/
def exactCount (mult : UInt64) : Nat := mult.toNat * cfg.linkConcurrency.toNat

/-- The two buffer areas and the areas of the events, the commands and the write requests, as natural numbers. -/
def exactAreas : List Nat :=
  [cfg.linkBufferOutboundSize.toNat * cfg.exactCount cfg.linkBufferMult,
    cfg.linkBufferInboundSize.toNat * cfg.exactCount cfg.linkBufferMult,
    cfg.exactCount cfg.eventMult * s.tnEventBase.toNat, cfg.exactCount cfg.cmdMult * s.tnCmdBase.toNat,
    cfg.exactCount cfg.writeReqMult * s.writeReq.toNat]

def exactSum : Nat := (cfg.exactAreas s).sum

/-- The five counts and the estimate are those of the natural numbers, and no product or sum on the way to them reaches
2 ^ 64. -/
structure HeapExact (cfg' : ServiceCfg) : Prop where
  inboundCount : cfg'.linkBufferInboundCount.toNat = cfg.exactCount cfg.linkBufferMult
  outboundCount : cfg'.linkBufferOutboundCount.toNat = cfg.exactCount cfg.linkBufferMult
  eventCount : cfg'.eventCount.toNat = cfg.exactCount cfg.eventMult
  cmdCount : cfg'.cmdCount.toNat = cfg.exactCount cfg.cmdMult
  writeReqCount : cfg'.writeReqCount.toNat = cfg.exactCount cfg.writeReqMult
  total : cfg'.totalHeapSize.toNat = cfg.exactSum s + cfg.exactSum s / 2
  areas : ∀ x ∈ cfg.exactAreas s, x < 2 ^ 64
  sums : ∀ k, ((cfg.exactAreas s).take k).sum < 2 ^ 64

variable {s cfg} {cfg' : ServiceCfg}

private theorem le_sum_of_mem {x : Nat} {l : List Nat} (hx : x ∈ l) : x ≤ l.sum := by
  obtain ⟨l₁, l₂, rfl⟩ := List.append_of_mem hx
  rw [List.sum_append_nat, List.sum_cons]
  omega

private theorem guard_eq_some {p : Prop} [Decidable p] {u : Unit} : (guard p : Option Unit) = some u ↔ p := by
  by_cases h : p <;> simp [guard, h]

private theorem exactSum_eq : cfg.exactSum s = cfg.linkBufferOutboundSize.toNat * cfg.exactCount cfg.linkBufferMult +
    cfg.linkBufferInboundSize.toNat * cfg.exactCount cfg.linkBufferMult +
    cfg.exactCount cfg.eventMult * s.tnEventBase.toNat + cfg.exactCount cfg.cmdMult * s.tnCmdBase.toNat +
    cfg.exactCount cfg.writeReqMult * s.writeReq.toNat := by
  simp [exactSum, exactAreas, Nat.add_assoc]

theorem exact_of_lt (h : svlServiceConfigSetup s cfg = some cfg')
    (hlt : cfg.exactSum s + cfg.exactSum s / 2 < 2 ^ 64) : HeapExact s cfg cfg' := by
  simp only [svlServiceConfigSetup, Option.bind_eq_bind, Option.bind_eq_some_iff, guard_eq_some, exists_and_left,
    exists_const, Option.some.injEq] at h
  obtain ⟨-, -, hout, hin, -, -, -, rfl⟩ := h
  have hsum := @exactSum_eq s cfg
  -- no count is more than the area that it is a factor of
  have hbuffer := Nat.le_mul_of_pos_left (cfg.exactCount cfg.linkBufferMult) (pos_of_ne_zero hout)
  have hevent := Nat.le_mul_of_pos_right (cfg.exactCount cfg.eventMult) s.tnEventBase_pos
  have hcmd := Nat.le_mul_of_pos_right (cfg.exactCount cfg.cmdMult) s.tnCmdBase_pos
  have hwrite := Nat.le_mul_of_pos_right (cfg.exactCount cfg.writeReqMult) s.writeReq_pos
  have hcounts : ∀ m : UInt64, cfg.exactCount m < 2 ^ 64 → (m * cfg.linkConcurrency).toNat = cfg.exactCount m :=
    fun m hm => toNat_mul_of_lt rfl rfl hm
  have cbuffer := hcounts cfg.linkBufferMult (by omega)
  have cevent := hcounts cfg.eventMult (by omega)
  have ccmd := hcounts cfg.cmdMult (by omega)
  have cwrite := hcounts cfg.writeReqMult (by omega)
  have aout := toNat_mul_of_lt (a := cfg.linkBufferOutboundSize) rfl cbuffer (by omega)
  have ain := toNat_mul_of_lt (a := cfg.linkBufferInboundSize) rfl cbuffer (by omega)
  have aevent := toNat_mul_of_lt (b := s.tnEventBase) cevent rfl (by omega)
  have acmd := toNat_mul_of_lt (b := s.tnCmdBase) ccmd rfl (by omega)
  have awrite := toNat_mul_of_lt (b := s.writeReq) cwrite rfl (by omega)
  have hzero : (0 : UInt64).toNat = 0 := rfl
  have h₁ := toNat_add_of_lt hzero aout (by omega)
  have h₂ := toNat_add_of_lt h₁ ain (by omega)
  have h₃ := toNat_add_of_lt h₂ aevent (by omega)
  have h₄ := toNat_add_of_lt h₃ acmd (by omega)
  have h₅ := toNat_add_of_lt h₄ awrite (by omega)
  rw [Nat.zero_add, ← hsum] at h₅
  have hhalf := toNat_add_of_lt h₅ (toNat_half h₅) hlt
  refine ⟨cbuffer, cbuffer, cevent, ccmd, cwrite, hhalf, ?_, ?_⟩
  · intro x hx
    have hle := le_sum_of_mem hx
    rw [← exactSum] at hle
    omega
  · intro k
    have hadd := @List.sum_append_nat ((cfg.exactAreas s).take k) ((cfg.exactAreas s).drop k)
    rw [List.take_append_drop, ← exactSum] at hadd
    omega

theorem heapExact_iff (h : svlServiceConfigSetup s cfg = some cfg') :
    HeapExact s cfg cfg' ↔ cfg.exactSum s + cfg.exactSum s / 2 < 2 ^ 64 := by
  constructor
  · intro hexact
    rw [← hexact.total]
    exact cfg'.totalHeapSize.toNat_lt
  · exact exact_of_lt h

/-- `svl_service_config_setup_default` sets up a copy of the default instance. -/
theorem setup_of_setupDefault {maxCcu : UInt64} (h : svlServiceConfigSetupDefault s maxCcu = some cfg') :
    svlServiceConfigSetup s (forMaxCcu maxCcu) = some cfg' := by
  simp only [svlServiceConfigSetupDefault, Option.bind_eq_bind, Option.bind_eq_some_iff, guard_eq_some,
    exists_and_left, exists_const] at h
  exact h.2

theorem exactSum_forMaxCcu (maxCcu : UInt64) : (forMaxCcu maxCcu).exactSum s =
    4 * maxCcu.toNat * (2 * 65536 + s.tnEventBase.toNat + s.tnCmdBase.toNat + s.writeReq.toNat) := by
  have hcount : (forMaxCcu maxCcu).exactCount 4 = 4 * maxCcu.toNat := rfl
  rw [exactSum_eq]
  change 65536 * (forMaxCcu maxCcu).exactCount 4 + 65536 * (forMaxCcu maxCcu).exactCount 4 +
    (forMaxCcu maxCcu).exactCount 4 * s.tnEventBase.toNat + (forMaxCcu maxCcu).exactCount 4 * s.tnCmdBase.toNat +
    (forMaxCcu maxCcu).exactCount 4 * s.writeReq.toNat = _
  rw [hcount, Nat.mul_add, Nat.mul_add, Nat.mul_add]
  omega

/-- The estimate is exact if and only if the exact one does not reach 2 ^ 64. -/
theorem heap_estimate_iff (s : TypeSizes) :
    (∀ cfg cfg', svlServiceConfigSetup s cfg = some cfg' →
      (HeapExact s cfg cfg' ↔ cfg.exactSum s + cfg.exactSum s / 2 < 2 ^ 64)) ∧
    ∀ maxCcu cfg', svlServiceConfigSetupDefault s maxCcu = some cfg' →
      (HeapExact s (forMaxCcu maxCcu) cfg' ↔
        (forMaxCcu maxCcu).exactSum s + (forMaxCcu maxCcu).exactSum s / 2 < 2 ^ 64) :=
  ⟨fun _ _ h => heapExact_iff h, fun _ _ h => heapExact_iff (setup_of_setupDefault h)⟩

/-- The estimate for a hundred links is exact. -/
theorem heap_estimate_hundred : ∃ cfg', svlServiceConfigSetupDefault someSizes 100 = some cfg' ∧
    HeapExact someSizes (forMaxCcu 100) cfg' := by
  obtain ⟨cfg', h⟩ : ∃ cfg', svlServiceConfigSetupDefault someSizes 100 = some cfg' :=
    Option.isSome_iff_exists.1 (by decide)
  refine ⟨cfg', h, ((heap_estimate_iff someSizes).2 100 cfg' h).2 ?_⟩
  rw [exactSum_forMaxCcu]
  decide

/-- For 2 ^ 62 links all counts and the estimate are 0. -/
theorem heap_estimate_zero : ∃ cfg', svlServiceConfigSetupDefault someSizes (2 ^ 62) = some cfg' ∧
    cfg'.eventCount = 0 ∧ cfg'.totalHeapSize = 0 ∧ ¬ HeapExact someSizes (forMaxCcu (2 ^ 62)) cfg' := by
  have hzero : (svlServiceConfigSetupDefault someSizes (2 ^ 62)).any
      (fun cfg' => cfg'.eventCount = 0 ∧ cfg'.totalHeapSize = 0) = true := by decide +kernel
  obtain ⟨cfg', h, hc⟩ := (Option.any_eq_true _ _).1 hzero
  obtain ⟨hevent, htotal⟩ := of_decide_eq_true hc
  refine ⟨cfg', h, hevent, htotal, fun hexact => ?_⟩
  have hcount := hexact.eventCount
  rw [hevent] at hcount
  exact absurd hcount (by decide +kernel)

end ServiceCfg

/-! ### The arrays and the loops over them -/

/-- An array of `count` elements of `elem` bytes, acquired with the product of the two, and a loop over it
`for (i = 0; i < count; i++)` with an index whose greatest value is `max`. -/
structure Fill where
  max : Nat
  count : UInt64
  elem : UInt64

namespace Fill

variable (f : Fill) {n : Nat}

/-- The argument of `TN_MEM_ACQUIRE` -/
def size : UInt64 := f.count * f.elem

/-- The elements that the loop writes to from the index `i` on, unless the index overflows. -/
def loop (i : Nat) : Option (List Nat) :=
  if i < f.count.toNat then
    if i < f.max then (loop (i + 1)).map (i :: ·) else none
  else some []
  termination_by f.count.toNat - i

/-- There are `n` elements, the size is exact, and the loop writes to each element once and inside of the size. -/
structure Exact (n : Nat) : Prop where
  count : f.count.toNat = n
  size : f.size.toNat = n * f.elem.toNat
  loop : f.loop 0 = some (List.range n)
  inside : ∀ i < n, (i + 1) * f.elem.toNat ≤ f.size.toNat

variable {f}

/-- An index that takes the value `count` goes through all elements. -/
private theorem loop_of_le (hmax : f.count.toNat ≤ f.max) (k : Nat) :
    f.loop k = some (List.range' k (f.count.toNat - k)) := by
  induction h : f.count.toNat - k generalizing k with
  | zero =>
    unfold loop
    rw [if_neg (by omega)]
    rfl
  | succ d ih =>
    unfold loop
    rw [if_pos (by omega), if_pos (by omega), ih (k + 1) (by omega)]
    rfl

private theorem loop_of_lt (hmax : f.max < f.count.toNat) {k : Nat} (hk : k < f.count.toNat) : f.loop k = none := by
  induction h : f.count.toNat - k generalizing k with
  | zero => omega
  | succ d ih =>
    unfold loop
    rw [if_pos hk]
    by_cases hlt : k < f.max
    · rw [if_pos hlt, ih (by omega) (by omega)]
      rfl
    · rw [if_neg hlt]

theorem exact_iff (hn : f.count.toNat = n) : f.Exact n ↔ n * f.elem.toNat < 2 ^ 64 ∧ n ≤ f.max := by
  constructor
  · intro h
    refine ⟨h.size ▸ f.size.toNat_lt, ?_⟩
    by_contra hmax
    have hnone := loop_of_lt (f := f) (k := 0) (by omega) (by omega)
    exact absurd (hnone.symm.trans h.loop) (by simp)
  · rintro ⟨hlt, hmax⟩
    have hsize : f.size.toNat = n * f.elem.toNat := toNat_mul_of_lt hn rfl hlt
    refine ⟨hn, hsize, ?_, ?_⟩
    · rw [loop_of_le (by omega), Nat.sub_zero, hn, List.range_eq_range']
    · intro i hi
      rw [hsize]
      exact Nat.mul_le_mul_right _ hi

end Fill

/-! ### The pools of a service -/

/-- The size of a pointer -/
def pointerSize : UInt64 := 8

/-- `service->buffer_count = service->client_count_max * 4` -/
def bufferCount (maxClients : UInt64) : UInt64 := maxClients * 4

section Pools

variable (s : TypeSizes) (maxClients : UInt64)

/-- `client_map` with the loop of `svl_link_list_setup`, whose index is a `size_t` -/
def clientMapFill : Fill := ⟨sizeMax, maxClients, s.link⟩

/-- `event_updates` with the loop of `svl_service_setup`, whose index is a `uint64_t` -/
def eventUpdatesFill : Fill := ⟨sizeMax, bufferCount maxClients, pointerSize⟩

/-- `write_reqs` with the same loop -/
def writeReqsFill : Fill := ⟨sizeMax, bufferCount maxClients, s.writeReq⟩

/-- `send_req` with the loop of `svl_service_io_thread`, whose index is an `int` -/
def sendReqFill : Fill := ⟨intMax, bufferCount maxClients, s.writeReq⟩

/-- `buffer_count` and the four arrays are exact, and each of their elements is pushed to its list. -/
structure PoolsExact (out : SetupOut) : Prop where
  bufferCount : (bufferCount maxClients).toNat = 4 * maxClients.toNat
  clientMap : (clientMapFill s maxClients).Exact maxClients.toNat
  eventUpdates : (eventUpdatesFill maxClients).Exact (4 * maxClients.toNat)
  writeReqs : (writeReqsFill s maxClients).Exact (4 * maxClients.toNat)
  sendReq : (sendReqFill s maxClients).Exact (4 * maxClients.toNat)
  linkPush : ∀ i < maxClients.toNat, out.clientPush i = true
  writeReqPush : ∀ i < 4 * maxClients.toNat, out.writeReqPush i = true
  sendReqPush : fillSendReqs (.setup (ServerLynx.bufferCount maxClients).toNat)
    (ServerLynx.bufferCount maxClients).toNat = some ⟨4 * maxClients.toNat, (List.range (4 * maxClients.toNat)).reverse⟩

variable {s maxClients} {out : SetupOut} {l : Ledger Place}

/-- The ranges of `linkListLines` and `setupLines` are the indices of the two loops, for every count. -/
theorem setup_loops : (clientMapFill s maxClients).loop 0 = some (List.range maxClients.toNat) ∧
    (writeReqsFill s maxClients).loop 0 = some (List.range (maxClients.toNat * 4 % 2 ^ 64)) := by
  constructor
  · rw [Fill.loop_of_le (le_sizeMax _), List.range_eq_range']
    rfl
  · rw [Fill.loop_of_le (le_sizeMax _), List.range_eq_range']
    rfl

/-- `buffer_count` does not wrap if its loops are right. -/
theorem poolsExact_iff (h : (svlServiceSetup out maxClients.toNat l).1 = true) : PoolsExact s maxClients out ↔
    4 * maxClients.toNat ≤ intMax ∧ maxClients.toNat * s.link.toNat < 2 ^ 64 ∧
      4 * maxClients.toNat * s.writeReq.toNat < 2 ^ 64 := by
  constructor
  · intro hexact
    have hsend := (Fill.exact_iff hexact.bufferCount).1 hexact.sendReq
    have hmap := (Fill.exact_iff rfl).1 hexact.clientMap
    exact ⟨hsend.2, hmap.1, hsend.1⟩
  · rintro ⟨hint, hlink, hreq⟩
    have hlt : 4 * maxClients.toNat < 2 ^ 31 := by
      rw [intMax] at hint
      omega
    obtain ⟨-, hlinks, hlists⟩ := svlServiceSetup_fst.1 h
    have hcount : (bufferCount maxClients).toNat = 4 * maxClients.toNat := by
      rw [Nat.mul_comm]
      exact toNat_mul_of_lt rfl rfl (by omega)
    have hmod : maxClients.toNat * 4 % 2 ^ 64 = 4 * maxClients.toNat := by omega
    rw [hmod] at hlists
    have hsize : 4 * maxClients.toNat ≤ sizeMax := hcount ▸ le_sizeMax _
    have hptr : 4 * maxClients.toNat * pointerSize.toNat < 2 ^ 64 := by
      rw [show pointerSize.toNat = 8 from rfl]
      omega
    exact {
      bufferCount := hcount
      clientMap := (Fill.exact_iff rfl).2 ⟨hlink, le_sizeMax _⟩
      eventUpdates := (Fill.exact_iff hcount).2 ⟨hptr, hsize⟩
      writeReqs := (Fill.exact_iff hcount).2 ⟨hreq, hsize⟩
      sendReq := (Fill.exact_iff hcount).2 ⟨hreq, hint⟩
      linkPush := hlinks.2.2
      writeReqPush := hlists.2.2.2.2.2.2.2.2
      sendReqPush := hcount ▸ fillSendReqs_eq _ (Nat.le_refl _) }

end Pools

/-- The pools of a set-up for a hundred clients are exact. -/
theorem poolsExact_hundred : PoolsExact someSizes 100 {} :=
  (poolsExact_iff (l := .empty) (svlServiceSetup_fst.2 (by simp [SetupOut.Succeeds, SetupOut.SetsUpLinkList,
    SetupOut.SetsUpLists]))).2 (by decide)

/-- For 2 ^ 29 clients the index of the loop over `send_req` overflows. -/
theorem poolsExact_overflow : (svlServiceSetup {} (2 ^ 29 : UInt64).toNat .empty).1 = true ∧
    (sendReqFill someSizes (2 ^ 29)).loop 0 = none ∧ ¬ PoolsExact someSizes (2 ^ 29) {} := by
  have hnone : (sendReqFill someSizes (2 ^ 29)).loop 0 = none := Fill.loop_of_lt (by decide) (by decide)
  refine ⟨?_, hnone, fun h => ?_⟩
  · rw [svlServiceSetup_fst]
    simp [SetupOut.Succeeds, SetupOut.SetsUpLinkList, SetupOut.SetsUpLists]
  · exact absurd (hnone.symm.trans h.sendReq.loop) (by simp)

end ServerLynx
