import Mathlib.Data.Finset.Card
import Mathlib.Data.Finset.Range
import ServerLynx.Teardown
import ServerLynx.Threads.Bounded

/-!
# The end of the IO thread

Once the loop is torn down and the connections are closing too, `uv_run` returns.  Each step of the IO thread then
completes a close or a write that is due, or is one of the few operations of such a callback, and as long as the thread
has not ended there is such a step.  So a stop that waits for the thread comes back.
-/

namespace ServerLynx

open Threads

variable {n : Nat} {io l : Io} {can : Io → (o : Op) → o.Res → Prop}

/-- Inside `uv_run`, the loop is torn down and no link is up. -/
structure Draining (io : Io) : Prop where
  phase : io.phase = .running
  torn : TornDown io
  links : NoLinkUp io

/-- The callbacks that are due: those of the writes that libuv holds and of the handles that are closing. -/
def due (io : Io) : Nat :=
  io.writes.length +
    ((Finset.range io.handleCount).filter fun h => (io.handles h).isClosing = true ∧ (io.handles h).closed = false).card

namespace Draining

/-- What is left to run. -/
theorem ready {E : Premises} (hd : Draining io) (hi : IoInv n E io) {d : IoRun} {sh : Shared}
    (hr : d.ready sh io = true) : d = .uvRunReturn ∨ (∃ h, d = .close h) ∨ ∃ q, d = .send q := by
  have hup : ∀ {h i}, (io.handles h).Holds i → (io.handles h).closing ≠ none := by
    intro h i hh hn
    have := hd.links h i hh
    simp [Handle.isClosing, hn] at this
  rcases hd.torn.ready (by simp [hd.phase]) hr with rfl | ⟨hk, hin⟩
  · exact .inl rfl
  cases d with
  | close h => exact .inr (.inl ⟨h, rfl⟩)
  | send q => exact .inr (.inr ⟨q, rfl⟩)
  | inbound status out => exact absurd rfl (hin status out)
  | read h out =>
    simp only [IoRun.ready, Bool.and_eq_true] at hr
    obtain ⟨i, hh, hn⟩ := hi.slots.reading h hr.2
    exact absurd hn (hup hh)
  | outbound q status out =>
    simp only [IoRun.ready, Bool.and_eq_true] at hr
    obtain ⟨-, i, h, -, -, hh, hn, -⟩ := hi.slots.pending q hr.2
    exact absurd hn (hup hh)
  | _ => simp [IoRun.kind] at hk

/-- A callback that changes no connection but one that is closing. -/
theorem onlyConn (hd : Draining io) (ht : TornDown l) (hp : l.phase ≠ .undefined) {d : IoRun}
    (hx : ∀ h, d.conn io = some h → (io.handles h).closing ≠ none) (hl : OnlyConn (d.conn io) (d.entry io) l) :
    Draining l where
  phase := by
    rcases hl.phase with he | he
    · rcases (d.entry_handles io).1.phase with he' | he'
      · exact he.trans (he'.trans hd.phase)
      · exact absurd (he.trans he') hp
    · exact absurd he hp
  torn := ht
  links h i hh := by
    obtain ⟨-, hothers, hclosing⟩ := d.entry_handles io
    by_cases he : d.conn io = some h
    · exact Option.isSome_iff_ne_none.2 (hl.closing h (hclosing h ▸ hx h he))
    · have hsame := (hl.others h (Ne.symm he)).trans (hothers h (Ne.symm he))
      rw [hsame] at hh ⊢
      exact hd.links h i hh

end Draining

/-- One close less is due. -/
theorem due_close {h : Nat} (hlt : h < io.handleCount) (hc : (io.handles h).isClosing = true)
    (hd : (io.handles h).closed = false)
    (hl : OnlyConn (some h) (io.setHandle h fun x => { x with closed := true }) l) : due l + 1 = due io := by
  have hset : (Finset.range l.handleCount).filter (fun h => (l.handles h).isClosing = true ∧
      (l.handles h).closed = false) = ((Finset.range io.handleCount).filter fun h =>
        (io.handles h).isClosing = true ∧ (io.handles h).closed = false).erase h := by
    ext h'
    rw [hl.count]
    by_cases he : h' = h
    · subst he
      have hcl : (l.handles h').closed = true := (hl.closed h').trans (by simp)
      simp [hcl]
    · have hsame : l.handles h' = io.handles h' :=
        (hl.others h' (by simpa using he)).trans (Function.update_of_ne he _ _)
      simp [hsame, he, Io.setHandle]
  have hmem : h ∈ (Finset.range io.handleCount).filter fun h =>
      (io.handles h).isClosing = true ∧ (io.handles h).closed = false := by
    simp [hlt, hc, hd]
  have hw : l.writes = io.writes := hl.writes
  have hcard := Finset.card_erase_add_one hmem
  unfold due
  rw [hset, hw]
  omega

/-- One write less is due. -/
theorem due_send {q : Nat} (hq : q ∈ io.writes) (hl : OnlyConn none { io with writes := io.writes.erase q } l) :
    due l + 1 = due io := by
  have hh : ∀ h, l.handles h = io.handles h := fun h => hl.others h (by simp)
  have hc : l.handleCount = io.handleCount := hl.count
  have hw : l.writes = io.writes.erase q := hl.writes
  have hlen := List.length_erase_add_one hq
  unfold due
  simp only [hh, hc, hw]
  omega

/-- Each callback completes one thing that is due, and leaves the loop draining. -/
theorem IoRun.drains {E : Premises} (hE : E.noFail) (hcan : Promised can E) (hi : IoInv n E io)
    (hs : Settled io) (hd : Draining io) {d : IoRun} {sh : Shared} (hr : d.ready sh io = true)
    (hk : (∃ h, d = .close h) ∨ ∃ q, d = .send q) :
    d.code.path can (fun l _ => Draining l ∧ due l + 1 = due io) (fun l _ => Draining l ∧ due l + 1 = due io) io := by
  have hevent : d.kind = .event ∧ (∀ status out, d ≠ .inbound status out) ∧
      ∀ req status out, d ≠ .outbound req status out := by
    rcases hk with ⟨h, rfl⟩ | ⟨q, rfl⟩ <;> exact ⟨rfl, by simp, by simp⟩
  have hx : ∀ h, d.conn io = some h → (io.handles h).closing ≠ none := by
    rintro h hconn
    rcases hk with ⟨h', rfl⟩ | ⟨q, rfl⟩
    · obtain rfl : h' = h := Option.some.inj hconn
      simp only [IoRun.ready, Bool.and_eq_true] at hr
      exact Option.isSome_iff_ne_none.1 hr.2.1
    · simp [IoRun.conn] at hconn
  have hdue : ∀ {l}, OnlyConn (d.conn io) (d.entry io) l → due l + 1 = due io := by
    intro l hl
    rcases hk with ⟨h, rfl⟩ | ⟨q, rfl⟩
    · simp only [IoRun.ready, Bool.and_eq_true, Bool.not_eq_true'] at hr
      obtain ⟨cb, hcb⟩ := Option.isSome_iff_exists.1 hr.2.1
      exact due_close (hi.slots.lt_count_of_closing hcb) hr.2.1 hr.2.2 hl
    · simp only [IoRun.ready, Bool.and_eq_true, decide_eq_true_eq] at hr
      exact due_send hr.2 hl
  refine Code.path_mono (fun l _ hl => ?_) (fun l _ hl => ?_)
    (Prog.path_and (IoRun.code_keeps hcan hi hs hr fun _ req status out h => absurd h (hevent.2.2 req status out))
      (hd.torn.keeps hcan hi hs hevent.1 hevent.2.1 hr))
  · exact ⟨hd.onlyConn hl.2.1 (hl.1.defined hE) hx hl.2.2, hdue hl.2.2⟩
  · exact ⟨hd.onlyConn hl.2.1 (hl.1.1.defined hE) hx hl.2.2, hdue hl.2.2⟩

/-! ### The operations of a callback -/

private theorem getLink_atMost (i : Nat) : (getLink i).AtMost 0 := .after_silent .get fun _ => .pure _

private theorem onCloseLinkCb_atMost (h : Nat) : (onCloseLinkCb h).AtMost 3 := by
  refine .after_silent .get fun io => ?_
  split
  case h_2 => exact .modify
  refine .after_silent .modify fun _ => .after_op ?_ fun _ => .after_op (.op _) fun r => ?_
  · refine .after_silent (getLink_atMost _) fun link => ?_
    split
    · exact .after_op (.op _) fun _ => .modify
    · exact .pure _
  split
  case h_2 => exact .modify
  refine .after_silent .modify fun _ => .after_silent (getLink_atMost _) fun _ => .after_op ?_ fun _ =>
    .after_silent .modify fun _ => .modify
  exact .after_op (.op _) fun _ => .after_silent .modify fun _ => .pure _

/-- A callback that is due performs three operations at most. -/
theorem IoRun.atMost {d : IoRun} (hk : (∃ h, d = .close h) ∨ ∃ q, d = .send q) : d.code.AtMost 3 := by
  rcases hk with ⟨h, rfl⟩ | ⟨q, rfl⟩
  · refine .after_silent .modify fun _ => .after_silent .get fun io => ?_
    split
    · exact onCloseLinkCb_atMost h
    · exact .modify
    · exact .pure _
  · refine .after_silent .modify fun _ => .after_silent .get fun io => ?_
    split <;> exact .modify

/-! ### The return of `uv_run` -/

namespace Draining

/-- Nothing is in the loop but handles that are closing. -/
theorem isClosing (hd : Draining io) (hn : NoOrphan io) {h : Nat} (hin : io.InLoop h = true) :
    (io.handles h).isClosing = true := by
  simp only [Io.InLoop, Bool.and_eq_true, decide_eq_true_eq] at hin
  by_contra hno
  have hcl : (io.handles h).closing = none := by simpa [Handle.isClosing] using hno
  rcases hn.registered hd.phase h hin.1.1 hin.2 hcl with hm | ⟨i, hh⟩
  · exact hno (hd.torn.closing h hm)
  · exact hno (hd.links h i hh)

/-- When `uv_run` returns nothing is left in the loop, so that `uv_loop_close` succeeds and the thread ends. -/
theorem returns (hd : Draining io) (hn : NoOrphan io) (ha : io.uvLoopAlive = false) :
    (IoRun.uvRunReturn.code io).next = some .threadEnd := by
  have hempty : ({ io with phase := .off } : Io).uvLoopClose = 0 := by
    have hnone : (List.range io.handleCount).any io.InLoop = false := by
      simp only [Io.uvLoopAlive, Bool.or_eq_false_iff, List.any_eq_false, Bool.and_eq_true, Bool.or_eq_true] at ha
      refine List.any_eq_false.2 fun h hm hin => ha.1.1 h hm ⟨hin, .inr (hd.isClosing hn hin)⟩
    exact if_neg (Bool.eq_false_iff.1 hnone)
  -- only the first operation matters
  have hpath : IoRun.uvRunReturn.code.path (fun _ _ _ => False) (fun _ o => o = .threadEnd) (fun _ _ => False) io := by
    simp only [IoRun.code, ioThreadClose, ioThreadCleanup, Code.path_bind, Code.path_modify, Code.path_ite,
      Code.path_op]
    exact closeLoop_path (fun _ => ⟨by simp, fun _ => ⟨by simp, fun _ => ⟨trivial, fun _ h => h.elim⟩⟩⟩)
      fun hne => absurd hempty hne
  cases hp : IoRun.uvRunReturn.code io with
  | ret l a =>
    rw [Code.path, hp] at hpath
    exact hpath.elim
  | act l o k =>
    rw [Code.path, hp] at hpath
    exact congrArg some hpath.1

end Draining

/-! ### To the end of the thread -/

/-- The runs that go on until the IO thread has ended. -/
def untilEnded : ServiceCond where
  op₁ sh _ _ := decide (sh.thread ≠ .ended)
  op₂ sh _ _ := decide (sh.thread ≠ .ended)
  run₁ _ sh _ _ := decide (sh.thread ≠ .ended)
  run₂ _ sh _ _ := decide (sh.thread ≠ .ended)

/-- The IO thread has `k` steps left at most: it has ended, or it ends with its next operation, or it is in a callback
with `j` operations left at most, and `m` more callbacks are due. -/
inductive Ending (c : ServiceConfig) : Nat → Prop
  | ended (k : Nat) : c.sh.thread = .ended → Ending c k
  | last {k : Nat} : c.fst.view.next = some .threadEnd → 1 ≤ k → Ending c k
  | draining {m j k : Nat} : c.fst.path (service.Can₁ untilEnded fun _ _ _ => True)
      (fun l _ => Draining l ∧ due l = m) (fun l _ => Draining l ∧ due l = m) → c.fst.AtMost j → 4 * m + 2 + j ≤ k →
      Ending c k

section Ending

variable {c c' : ServiceConfig} {k : Nat}

private theorem ioInv_draining (hc : Reach n c) (hidle : c.fst.view.next = none) (hd : Draining c.fst.view.loc) :
    IoInv n ⟨False, False, True⟩ c.fst.view.loc ∧ Settled c.fst.view.loc := by
  obtain ⟨hi, hs⟩ := ioInv (E := ⟨False, False, False⟩) ⟨False.elim, False.elim, False.elim, False.elim⟩ hc
  exact ⟨{ hi with
    covered := False.elim
    inTurn := False.elim
    defined := fun _ => by simp [hd.phase] }, hs hidle⟩

/-- The thread is given a callback that is due, or `uv_run` returns. -/
private theorem ending_run {d : IoRun} {m : Nat} (hc : Reach n c) (hidle : c.fst.view.next = none)
    (hd : Draining c.fst.view.loc) (hm : due c.fst.view.loc = m) (hk : 4 * m + 2 ≤ k)
    (hs : service.step c (.run₁ d) = some c') : ∃ k', Ending c' k' ∧ k' + 1 ≤ k := by
  have hpromised : Promised (service.Can₁ untilEnded fun _ _ _ => True) ⟨False, False, True⟩ := by
    refine ⟨fun l t e evt hcan => ?_, False.elim, False.elim, False.elim⟩
    exact (Premises.In.promised (E := ⟨False, False, False⟩)
      ⟨False.elim, False.elim, False.elim, False.elim⟩ _).popType l t e evt hcan
  obtain ⟨hi, hsettled⟩ := ioInv_draining hc hidle hd
  have hno := noOrphan hc
  obtain ⟨io, hp, hr, rfl⟩ := Machine.step_run₁ hs
  rw [hp] at hi hsettled hno hd hm
  rcases hd.ready hi hr with rfl | hdue
  · simp only [service, IoRun.ready, Bool.and_eq_true, Bool.not_eq_true'] at hr
    exact ⟨1, .last (hd.returns hno hr.2) (Nat.le_refl 1), by omega⟩
  · have hpath : (d.code io).path (service.Can₁ untilEnded fun _ _ _ => True)
        (fun l _ => Draining l ∧ due l + 1 = due io) fun l _ => Draining l ∧ due l + 1 = due io :=
      IoRun.drains trivial hpromised hi hsettled hd hr hdue
    have hpos := hpath.loc.2
    have hm' : due io = m := hm
    refine ⟨4 * (m - 1) + 2 + 3, .draining (m := m - 1) (j := 3) (Code.path_mono (fun l _ h => ⟨h.1, ?_⟩)
      (fun l _ h => ⟨h.1, ?_⟩) hpath) (IoRun.atMost hdue io) (Nat.le_refl _), by omega⟩
    · have := h.2
      omega
    · have := h.2
      omega

/-- Each step of the IO thread makes what is left of it less, and no step of the main thread makes it more. -/
theorem Ending.step (hc : Reach n c) (he : Ending c k) {a : Act IoRun MainCall} (ha : untilEnded.allows c a)
    (hs : service.step c a = some c') : ∃ k', Ending c' k' ∧ k' + (if a.isFst then 1 else 0) ≤ k := by
  have hne : c.sh.thread ≠ .ended := by cases a <;> simpa [untilEnded, Cond.allows] using ha
  by_cases hsnd : a.isFst = false
  · have hfst := Machine.step_fst hs hsnd
    rw [if_neg (by simp [hsnd])]
    cases he with
    | ended _ h => exact absurd h hne
    | last h hk => exact ⟨k, .last (hfst ▸ h) hk, Nat.le_refl k⟩
    | draining hp hj hk => exact ⟨k, .draining (hfst ▸ hp) (hfst ▸ hj) hk, Nat.le_refl k⟩
  rw [if_pos (by simpa using hsnd)]
  cases he with
  | ended _ h => exact absurd h hne
  | last h hk =>
    cases hp : c.fst with
    | ret l x => simp [hp] at h
    | act l o f =>
      obtain rfl : o = .threadEnd := by simpa [hp] using h
      cases a with
      | op₁ =>
        obtain ⟨r, sh', hx, rfl⟩ := Machine.step_op₁ hp hs
        simp only [service, Op.exec, Option.some.injEq, Prod.mk.injEq] at hx
        exact ⟨0, .ended 0 (hx.2 ▸ rfl), hk⟩
      | run₁ d => simp [Machine.step, hp] at hs
      | op₂ => simp [Act.isFst] at hsnd
      | run₂ d => simp [Act.isFst] at hsnd
  | @draining m j k hp hj hk =>
    cases a with
    | op₁ =>
      cases hf : c.fst with
      | ret l x => simp [Machine.step, hf] at hs
      | act l o f =>
        have hpath := Machine.path_step trivial ha (by simp) hp hs
        obtain ⟨r, sh', -, rfl⟩ := Machine.step_op₁ hf hs
        rw [hf] at hj
        cases j with
        | zero => exact hj.elim
        | succ j => exact ⟨4 * m + 2 + j, .draining hpath (hj r) (Nat.le_refl _), by omega⟩
    | run₁ d =>
      obtain ⟨l, hf, -, -⟩ := Machine.step_run₁ hs
      have hidle : c.fst.view.next = none := by rw [hf]; rfl
      have hview : Draining c.fst.view.loc ∧ due c.fst.view.loc = m := hp.loc
      exact ending_run hc hidle hview.1 hview.2 (by omega) hs
    | op₂ => simp [Act.isFst] at hsnd
    | run₂ d => simp [Act.isFst] at hsnd

/-- As long as the thread has not ended, it has a step to take. -/
theorem Ending.progress (hc : Reach n c) (he : Ending c k) (hne : c.sh.thread ≠ .ended) :
    ∃ a, a.isFst = true ∧ (service.step c a).isSome = true := by
  cases hp : c.fst with
  | act l o f =>
    -- the IO thread performs no operation that blocks
    have hby := (next_by hc).1 o (by rw [hp]; rfl)
    refine ⟨.op₁, rfl, ?_⟩
    simp only [Machine.step, hp, Option.isSome_map]
    cases o <;> simp [Op.byIo] at hby <;> simp only [service, Op.exec] <;> (try split) <;> rfl
  | ret io x =>
    have hidle : c.fst.view.next = none := by rw [hp]; rfl
    cases he with
    | ended _ h => exact absurd h hne
    | last h => simp [hp] at h
    | draining hpath _ _ =>
      have hd : Draining c.fst.view.loc := hpath.loc.1
      obtain ⟨hi, -⟩ := ioInv_draining hc hidle hd
      have hno := noOrphan hc
      rw [hp] at hd hi hno
      have hrun : ∀ d : IoRun, d.ready c.sh io = true →
          ∃ a : Act IoRun MainCall, a.isFst = true ∧ (service.step c a).isSome = true :=
        fun d hr => ⟨.run₁ d, rfl, by simp [Machine.step, hp, service, hr]⟩
      have hphase : io.phase = .running := hd.phase
      have hcheck : io.inCheck = false := hd.torn.inCheck
      cases ha : io.uvLoopAlive with
      | false => exact hrun .uvRunReturn (by simp [IoRun.ready, hphase, hcheck, ha])
      | true =>
        simp only [Io.uvLoopAlive, Bool.or_eq_true, List.any_eq_true, Bool.and_eq_true] at ha
        rcases ha with (⟨h, -, hin, -⟩ | hw) | ⟨q, -, hq⟩
        · have hcl : (io.handles h).isClosing = true := hd.isClosing hno hin
          simp only [Io.InLoop, Bool.and_eq_true, Bool.not_eq_true'] at hin
          exact hrun (.close h) (by simp [IoRun.ready, hphase, hcheck, hcl, hin.1.2])
        · obtain ⟨q, hq⟩ := List.exists_mem_of_ne_nil io.writes (by simpa using hw)
          exact hrun (.send q) (by simp [IoRun.ready, hphase, hcheck, hq])
        · exact hrun (.outbound q 0 {}) (by simp [IoRun.ready, hphase, hcheck, hq])

end Ending

/-- Once the loop is torn down and no link is up, the IO thread comes to its end: whatever the order of the callbacks
and whatever the main thread does, until then it always has a step to take, and it takes four steps at most for each
callback that is due, and two more. -/
theorem stop_ends {c : ServiceConfig} (hc : Reach n c) (hidle : c.fst.view.next = none)
    (hd : Draining c.fst.view.loc) :
    (∀ as c', service.runWhen untilEnded c as = some c' → as.countP Act.isFst ≤ 4 * due c.fst.view.loc + 2) ∧
      ∀ c', service.Reach untilEnded c c' → c'.sh.thread ≠ .ended →
        ∃ a, a.isFst = true ∧ (service.step c' a).isSome = true := by
  have h₀ : Ending c (4 * due c.fst.view.loc + 2) := by
    cases hp : c.fst with
    | ret io x =>
      rw [hp] at hd
      exact .draining (m := due io) (j := 0) (hp ▸ ⟨hd, rfl⟩) (hp ▸ trivial) (Nat.le_refl _)
    | act l o f => simp [hp] at hidle
  refine ⟨fun as c' hr => ?_, fun c' hc' => ?_⟩
  · obtain ⟨k, -, hle⟩ := Machine.countP_le_of_rank (I := fun k c => Reach n c ∧ Ending c k)
      (fun {k c c' a} h ha hs => by
        obtain ⟨k', hk', hle⟩ := h.2.step h.1 ha hs
        exact ⟨k', ⟨h.1.step a (Cond.any_allows _ a) hs, hk'⟩, hle⟩) ⟨hc, h₀⟩ hr
    omega
  · suffices H : ∃ k, Ending c' k by
      obtain ⟨k, hk⟩ := H
      exact hk.progress (hc.trans hc'.to_any)
    induction hc' with
    | init => exact ⟨_, h₀⟩
    | step a hc₁ ha hs ih =>
      obtain ⟨k, hk⟩ := ih
      obtain ⟨k', hk', -⟩ := hk.step (hc.trans hc₁.to_any) ha hs
      exact ⟨k', hk'⟩

/-- The only client is gone, but its handle is still closing, when the timer tears the loop down: the IO thread ends
within twenty-six steps. -/
theorem stop_ends_with_client : ∃ c, Reach 1 c ∧ due c.fst.view.loc = 6 ∧
    (∀ as c', service.runWhen untilEnded c as = some c' → as.countP Act.isFst ≤ 4 * due c.fst.view.loc + 2) ∧
      ∀ c', service.Reach untilEnded c c' → c'.sh.thread ≠ .ended →
        ∃ a, a.isFst = true ∧ (service.step c' a).isSome = true := by
  obtain ⟨c, hc, ⟨hidle, hrun, hcheck, hcount, hdue⟩, hclosing⟩ := exists_reachWhen .any 1
    (.append startUp [.run₁ (.inbound 0 {}), .op₁, .op₁, .run₁ (.read 5 (.error 0)), .op₁, .op₁, .run₂ (.stop 0),
      .op₂, .op₂, .run₁ .timer, .op₁])
    (fun c => (c.fst.view.next = none ∧ c.fst.view.loc.phase = .running ∧ c.fst.view.loc.inCheck = false ∧
      c.fst.view.loc.handleCount = 6 ∧ due c.fst.view.loc = 6) ∧
        (∀ h ∈ List.range 6, (c.fst.view.loc.handles h).isClosing = true)) (by decide +kernel)
  have hi := (ioInv (E := ⟨False, False, False⟩) ⟨False.elim, False.elim, False.elim, False.elim⟩ hc).1
  have hd : Draining c.fst.view.loc := by
    refine ⟨hrun, ⟨hcheck, fun h hm => hclosing h (List.mem_range.2 ?_)⟩,
      fun h i hh => hclosing h (List.mem_range.2 ?_)⟩
    · exact hcount ▸ (hi.loop h hm).1
    · exact hcount ▸ hi.slots.lt_count hh
  exact ⟨c, hc, hdue, stop_ends hc hidle hd⟩

end ServerLynx