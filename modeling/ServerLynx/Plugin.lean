import ServerLynx.Setup
import Mathlib.Data.List.Induction

/-!
# Set-up and clean-up in the plugin (`servlynx_setup`, `servlynx_cleanup`)

The calls of an application on one service pointer, as far as the pointer and what the set-up acquires are concerned.
`servlynx_start`, `servlynx_stop` and `service_stop` acquire and release nothing of it.
-/

namespace ServerLynx

/-- `max_clients` of the plugin's service -/
def pluginClients : Nat := 1000

/-- The outcomes of `servlynx_setup`: whether `sys` is not NULL, the calls of `sl_sys_setup` and of the acquisition
of the service, and those of `svl_service_setup`. -/
structure PluginOut where
  sys : Bool := true
  sysSetup : Bool := true
  service : Bool := true
  setup : SetupOut := {}

/-- The service pointer of the application and what is acquired.  `isSetUp` is a history variable:
`svl_service_setup` on the service has returned `TN_SUCCESS`. -/
structure Plugin where
  ledger : Ledger Place := .empty
  isSetUp : Bool := false

namespace Plugin

/-- `*service_ptr` -/
def ptr (p : Plugin) : Option Nat := p.ledger.held .servicePtr

/-- `*service_ptr` is not NULL and points to a service that is set up. -/
def Usable (p : Plugin) : Prop := p.ptr.isSome = true ∧ p.isSetUp = true

end Plugin

/-- `servlynx_setup` -/
def servlynxSetup (out : PluginOut) (p : Plugin) : Bool × Plugin :=
  if !out.sys then (false, p) else
  if p.ptr.isSome then (true, p) else
  if !out.sysSetup then (false, p) else
  if !out.service then (false, { p with ledger := p.ledger.forget .servicePtr }) else
  let (ok, ledger) := svlServiceSetup out.setup pluginClients (p.ledger.acquire .servicePtr)
  (ok, ⟨ledger, ok⟩)

/-- `servlynx_cleanup`: the fields of the service are gone with its block. -/
def servlynxCleanup (p : Plugin) : Plugin := ⟨(p.ledger.release .servicePtr).forgetAll serviceFields, false⟩

inductive PluginCall
  | setup (out : PluginOut)
  | start
  | stop
  | cleanup

def PluginCall.run (p : Plugin) : PluginCall → Plugin
  | .setup out => (servlynxSetup out p).2
  | .start | .stop => p
  | .cleanup => servlynxCleanup p

/-- After the calls, from a NULL pointer on. -/
def Plugin.after (calls : List PluginCall) : Plugin := calls.foldl PluginCall.run {}

/-- `servlynx_setup` comes to `svl_service_setup` if the pointer is NULL. -/
def PluginOut.Reaches (out : PluginOut) : Prop := out.sys = true ∧ out.sysSetup = true ∧ out.service = true

/-- A `servlynx_setup` among the calls made a service whose `svl_service_setup` failed, and no `servlynx_cleanup` came
after it. -/
def LeftFailed (calls : List PluginCall) : Prop :=
  ∃ pre out post, calls = pre ++ .setup out :: post ∧ .cleanup ∉ post ∧ (Plugin.after pre).ptr = none ∧
    out.Reaches ∧ ¬ out.setup.Succeeds pluginClients

section Plugin

variable {calls : List PluginCall} {out : PluginOut} {p : Plugin}

theorem Plugin.after_append (calls : List PluginCall) (c : PluginCall) :
    Plugin.after (calls ++ [c]) = c.run (Plugin.after calls) := by
  simp [Plugin.after]

/-! ### Usable services -/

/-- With a pointer already set, nothing happens. -/
theorem servlynxSetup_of_some (h : p.ptr.isSome = true) : servlynxSetup out p = (out.sys, p) := by
  rw [servlynxSetup]
  cases out.sys <;> simp [h]

/-- Without one, a service is made and set up, or the pointer stays NULL. -/
theorem servlynxSetup_of_none (h : p.ptr = none) :
    (out.Reaches → servlynxSetup out p = ((svlServiceSetup out.setup pluginClients (p.ledger.acquire .servicePtr)).1,
      ⟨(svlServiceSetup out.setup pluginClients (p.ledger.acquire .servicePtr)).2,
        (svlServiceSetup out.setup pluginClients (p.ledger.acquire .servicePtr)).1⟩)) ∧
    (¬ out.Reaches → (servlynxSetup out p).1 = false ∧ (servlynxSetup out p).2.ptr = none) := by
  refine ⟨fun ⟨h₁, h₂, h₃⟩ => by simp [servlynxSetup, h, h₁, h₂, h₃], fun hno => ?_⟩
  rw [servlynxSetup]
  cases h₁ : out.sys with
  | false => simpa using h
  | true =>
    cases h₂ : out.sysSetup with
    | false => simp [h]
    | true =>
      cases h₃ : out.service with
      | false =>
        simp only [Bool.not_true, Bool.false_eq_true, if_false, h, Option.isSome_none, Bool.not_false, if_true]
        rw [Plugin.ptr, Ledger.forget_held, Function.update_self]
        exact ⟨trivial, rfl⟩
      | true => exact absurd ⟨h₁, h₂, h₃⟩ hno

theorem servlynxSetup_ptr (hr : out.Reaches) (h : p.ptr = none) : (servlynxSetup out p).2.ptr.isSome = true := by
  rw [(servlynxSetup_of_none h).1 hr, Plugin.ptr, svlServiceSetup_servicePtr, Ledger.acquire_held, Function.update_self]
  rfl

theorem servlynxCleanup_ptr (p : Plugin) : (servlynxCleanup p).ptr = none := by
  rw [servlynxCleanup, Plugin.ptr, Ledger.forgetAll_held, Ledger.release_held, Function.update_self, ite_self]

/-- One call more leaves a failed set-up behind unless it is a clean-up. -/
theorem leftFailed_append (c : PluginCall) : LeftFailed (calls ++ [c]) ↔ c ≠ .cleanup ∧ (LeftFailed calls ∨
    ∃ out, c = .setup out ∧ (Plugin.after calls).ptr = none ∧ out.Reaches ∧ ¬ out.setup.Succeeds pluginClients) := by
  constructor
  · rintro ⟨pre, out, post, he, hpost, h⟩
    rcases List.eq_nil_or_concat post with rfl | ⟨post', c', rfl⟩
    · obtain ⟨rfl, hc⟩ := List.append_inj' he rfl
      obtain rfl := (List.cons.inj hc).1
      exact ⟨by simp, .inr ⟨out, rfl, h⟩⟩
    · rw [List.concat_eq_append] at he hpost
      rw [← List.cons_append, ← List.append_assoc] at he
      obtain ⟨rfl, hc⟩ := List.append_inj' he rfl
      obtain rfl := (List.cons.inj hc).1
      refine ⟨?_, .inl ⟨pre, out, post', rfl, fun hm => hpost (List.mem_append_left _ hm), h⟩⟩
      rintro rfl
      exact hpost (by simp)
  · rintro ⟨hc, ⟨pre, out, post, rfl, hpost, h⟩ | ⟨out, rfl, h⟩⟩
    · exact ⟨pre, out, post ++ [c], by simp, by simpa using ⟨hpost, hc.symm⟩, h⟩
    · exact ⟨calls, out, [], rfl, by simp, h⟩

/-- A service that is there has been set up, unless a failed set-up left it. -/
theorem isSetUp_iff (calls : List PluginCall) : (Plugin.after calls).ptr.isSome = true ∧
    (Plugin.after calls).isSetUp = false ↔ LeftFailed calls := by
  induction calls using List.reverseRecOn with
  | nil =>
    refine iff_of_false (by simp [Plugin.after, Plugin.ptr, Ledger.empty]) ?_
    rintro ⟨pre, out, post, he, -⟩
    simp at he
  | append_singleton calls c ih =>
    rw [leftFailed_append, Plugin.after_append, ← ih]
    cases c with
    | start => simp [PluginCall.run]
    | stop => simp [PluginCall.run]
    | cleanup => simp [PluginCall.run, servlynxCleanup_ptr]
    | setup out =>
      simp only [PluginCall.run]
      cases hp : (Plugin.after calls).ptr with
      | some b =>
        rw [servlynxSetup_of_some (by simp [hp])]
        simp [hp]
      | none =>
        by_cases hr : out.Reaches
        · have hptr := servlynxSetup_ptr hr hp
          rw [(servlynxSetup_of_none hp).1 hr] at hptr ⊢
          simp [hptr, hr, ← svlServiceSetup_fst (s := (Plugin.after calls).ledger.acquire .servicePtr)]
        · simp [((servlynxSetup_of_none hp).2 hr).2, hr]

/-- A `servlynx_setup` that succeeds leaves a usable service exactly if no failed set-up has left one before it. -/
theorem servlynxSetup_usable_iff (calls : List PluginCall) (out : PluginOut) :
    ((servlynxSetup out (Plugin.after calls)).1 = true → (servlynxSetup out (Plugin.after calls)).2.Usable) ↔
      out.sys = false ∨ ¬ LeftFailed calls := by
  rw [← isSetUp_iff]
  cases hp : (Plugin.after calls).ptr with
  | some b =>
    rw [servlynxSetup_of_some (by simp [hp])]
    cases out.sys <;> simp [Plugin.Usable, hp]
  | none =>
    refine iff_of_true (fun hok => ?_) (by simp)
    by_cases hr : out.Reaches
    · refine ⟨servlynxSetup_ptr hr hp, ?_⟩
      rw [(servlynxSetup_of_none hp).1 hr] at hok ⊢
      exact hok
    · exact absurd hok (by simp [((servlynxSetup_of_none hp).2 hr).1])

/-- The first `servlynx_setup` fails in `svl_service_setup`, and the second one returns `TN_SUCCESS`. -/
theorem servlynxSetup_not_usable :
    (servlynxSetup {} (Plugin.after [.setup { setup := { priv := false } }])).1 = true ∧
      ¬ (servlynxSetup {} (Plugin.after [.setup { setup := { priv := false } }])).2.Usable := by
  refine ⟨by decide, fun h => absurd h.2 (by decide)⟩

/-! ### The balance of set-up and clean-up -/

/-- Everything succeeds. -/
def PluginOut.Succeeds (out : PluginOut) : Prop := out.Reaches ∧ out.setup.Succeeds pluginClients

/-- What the calls acquired has been released exactly once. -/
def Plugin.Released (p : Plugin) : Prop := ∀ b < p.ledger.count, p.ledger.released b = 1

/-- After the calls, a service that is there holds its `priv`; if any was ever there, something is lost unless there
is one now. -/
private structure Leaking (calls : List PluginCall) (p : Plugin) : Prop where
  priv : p.ptr.isSome = true → (p.ledger.held .priv).isSome = true
  lost : (∃ out, .setup out ∈ calls) → (∃ b, p.ledger.Lost b) ∨ p.ptr.isSome = true

/-- A service that is cleaned up loses its `priv`. -/
private theorem Leaking.cleanup (h : Leaking calls p) (hcalls : ∃ out, .setup out ∈ calls) :
    ∃ b, (servlynxCleanup p).ledger.Lost b := by
  rcases h.lost hcalls with ⟨b, hb⟩ | hptr
  · exact ⟨b, (hb.release _).forgetAll _⟩
  · obtain ⟨b, hb⟩ := Option.isSome_iff_exists.1 (h.priv hptr)
    refine ⟨b, Ledger.lost_of_forgetAll (p := .priv) (by simp [serviceFields]) ?_⟩
    rw [Ledger.release_held, Function.update_of_ne (by simp)]
    exact hb

private theorem leaking (hok : ∀ out, .setup out ∈ calls → out.Succeeds) : Leaking calls (Plugin.after calls) := by
  induction calls using List.reverseRecOn with
  | nil => exact ⟨by simp [Plugin.after, Plugin.ptr, Ledger.empty], by simp⟩
  | append_singleton calls c ih =>
    have h := ih fun out hm => hok out (List.mem_append_left _ hm)
    rw [Plugin.after_append]
    have hsame : (∀ out, c ≠ .setup out) → (∃ out, .setup out ∈ calls ++ [c]) → ∃ out, .setup out ∈ calls := by
      rintro hc ⟨out, hm⟩
      refine ⟨out, (List.mem_append.1 hm).resolve_right fun hm => hc out ?_⟩
      exact (List.mem_singleton.1 hm).symm
    cases c with
    | start => exact ⟨h.priv, fun hm => h.lost (hsame (by simp) hm)⟩
    | stop => exact ⟨h.priv, fun hm => h.lost (hsame (by simp) hm)⟩
    | cleanup =>
      refine ⟨fun hp => ?_, fun hm => .inl (h.cleanup (hsame (by simp) hm))⟩
      simp [PluginCall.run, servlynxCleanup_ptr] at hp
    | setup out =>
      obtain ⟨hr, hsetup⟩ := hok out (by simp)
      simp only [PluginCall.run]
      cases hp : (Plugin.after calls).ptr with
      | some b =>
        rw [servlynxSetup_of_some (by simp [hp])]
        exact ⟨h.priv, fun _ => .inr (by simp [hp])⟩
      | none =>
        have hptr := servlynxSetup_ptr hr hp
        refine ⟨fun _ => ?_, fun _ => .inr hptr⟩
        rw [(servlynxSetup_of_none hp).1 hr, svlServiceSetup_priv hsetup]
        rfl

private theorem after_count (hno : ∀ out, .setup out ∉ calls) : (Plugin.after calls).ledger.count = 0 := by
  induction calls using List.reverseRecOn with
  | nil => rfl
  | append_singleton calls c ih =>
    have h := ih fun out hm => hno out (List.mem_append_left _ hm)
    rw [Plugin.after_append]
    cases c with
    | setup out => exact absurd (by simp) (hno out)
    | start => exact h
    | stop => exact h
    | cleanup =>
      rw [PluginCall.run, servlynxCleanup, Ledger.forgetAll_count, Ledger.release_count]
      exact h

/-- After a `servlynx_cleanup` everything has been released exactly if nothing was ever set up. -/
theorem servlynxCleanup_released_iff (hok : ∀ out, .setup out ∈ calls → out.Succeeds) :
    (Plugin.after (calls ++ [.cleanup])).Released ↔ ∀ out, .setup out ∉ calls := by
  constructor
  · intro h out hm
    obtain ⟨b, hb⟩ := (leaking hok).cleanup ⟨out, hm⟩
    rw [Plugin.after_append] at h
    have hone := h b hb.lt
    rw [PluginCall.run, hb.unreleased] at hone
    cases hone
  · intro hno b hb
    rw [after_count (by simpa using hno)] at hb
    cases hb

private theorem setup_succeeds : ∀ out, .setup out ∈ [PluginCall.setup {}] → out.Succeeds := by
  intro out hm
  obtain rfl : out = {} := by simpa using hm
  exact ⟨⟨rfl, rfl, rfl⟩, rfl, ⟨rfl, rfl, fun _ _ => rfl⟩, rfl, rfl, rfl, rfl, rfl, rfl, rfl, rfl, fun _ _ => rfl⟩

/-- The condition is not met after one cycle of set-up and clean-up. -/
theorem servlynxCleanup_released_cycle : (Plugin.after ([.setup {}] ++ [.cleanup])).Released ↔
    ∀ out, .setup out ∉ [PluginCall.setup {}] :=
  servlynxCleanup_released_iff setup_succeeds

/-- After one cycle something is lost. -/
theorem servlynxCleanup_not_released : ¬ (Plugin.after ([.setup {}] ++ [.cleanup])).Released := by
  intro h
  obtain ⟨b, hb⟩ := (leaking setup_succeeds).cleanup ⟨{}, by simp⟩
  rw [Plugin.after_append] at h
  have hone := h b hb.lt
  rw [PluginCall.run, hb.unreleased] at hone
  cases hone

end Plugin

end ServerLynx
