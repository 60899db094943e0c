/-
# A request that finds no memory

`shannon_block.c`, the two versions of `shannon_disk_request`: the one for the
old request queues takes the requests off the queue in a loop, the one for
blk-mq is given one request at a time.  Both call `shannon_disk_xfer_request`,
which has ended the request or given it to the core when it returns 0, and has
done neither when it returns `-ENOMEM`: "will enqueue this request again".

| `shannon_disk_xfer_request` | legacy | blk-mq |
| --- | --- | --- |
| 0 | nothing | `BLK_STS_OK` |
| `-ENOMEM` | `blk_requeue_request` | `BLK_STS_IOERR` |

On `BLK_STS_RESOURCE` and `BLK_STS_DEV_RESOURCE` blk-mq puts a request back, on
any other error it ends it.  So the request that is to be tried again is ended
with an error (`treatedAlike_iff`); as long as no step reports `-ENOMEM` the two
versions do the same to a whole queue (`serve_eq`), and neither ever loses a
request (`serve_perm`).
-/

import Shannon.Block.Ledger

namespace Shannon
namespace Block

/-! ### The block layer -/

/-- The values of `blk_status_t` that matter here. -/
inductive BlkStatus where
  | ok
  | resource
  | devResource
  | ioerr
deriving DecidableEq, Repr

/-- A queue of the block layer: the requests that wait, the next one first,
those that have been ended, with `true` for success, and those the core has. -/
structure RequestQueue where
  waiting : List ℕ
  ended : List (ℕ × Bool)
  accepted : List ℕ
deriving DecidableEq, Repr

namespace RequestQueue

/-- The request `rq` waits again, before all others. -/
def requeue (q : RequestQueue) (rq : ℕ) : RequestQueue := { q with waiting := rq :: q.waiting }

def finish (q : RequestQueue) (rq : ℕ) (good : Bool) : RequestQueue :=
  { q with ended := (rq, good) :: q.ended }

def accept (q : RequestQueue) (rq : ℕ) : RequestQueue := { q with accepted := rq :: q.accepted }

/-- What an event of a script for `rq` changes. -/
def note (rq : ℕ) (q : RequestQueue) : Event → RequestQueue
  | .endRequest good => q.finish rq good
  | .submit ret => if ret = 0 then q.accept rq else q
  | _ => q

/-- The queue after the events `es` of a script for `rq`. -/
def after (q : RequestQueue) (rq : ℕ) (es : List Event) : RequestQueue := es.foldl (note rq) q

/-- All requests, wherever they are. -/
def requests (q : RequestQueue) : List ℕ := q.waiting ++ q.ended.map Prod.fst ++ q.accepted

theorem after_visible (q : RequestQueue) (rq : ℕ) (es : List Event) :
    q.after rq (visible es) = q.after rq es := by
  induction es generalizing q with
  | nil => rfl
  | cons e es ih =>
      have hcons : q.after rq (e :: es) = (q.note rq e).after rq es := rfl
      rw [visible_cons, hcons, ← ih]
      split_ifs with he
      · rfl
      · cases e with
        | submit ret =>
            rw [Event.visible, decide_eq_true_eq] at he
            rw [note, if_neg he]
        | _ => first | rfl | simp [Event.visible] at he

end RequestQueue

/-! ### The two versions -/

/-- What `shannon_disk_xfer_request` returns. -/
def Script.ret (s : Script) : ℤ := if s.next = .requeue then -enomem else 0

variable (conv : Converters)

namespace Mq

/-- `shannon_disk_request` of blk-mq. -/
def shannonDiskRequest (c : LreqCall) : Except Oops (Script × BlkStatus) :=
  (shannonDiskXferRequest conv c).map fun s => (s, if s.ret = -enomem then .ioerr else .ok)

/-- What blk-mq does with the status. -/
def settle (q : RequestQueue) (rq : ℕ) : BlkStatus → RequestQueue
  | .ok => q
  | .resource | .devResource => q.requeue rq
  | .ioerr => q.finish rq false

/-- blk-mq dispatches `rq`, which it has taken off `q`. -/
def dispatch (c : LreqCall) (q : RequestQueue) (rq : ℕ) : Except Oops RequestQueue :=
  (shannonDiskRequest conv c).map fun (s, status) => settle (q.after rq s.events) rq status

end Mq

namespace Legacy

/-- One turn of the loop of `shannon_disk_request`, for `rq`, which it has taken
off `q`. -/
def dispatch (c : LreqCall) (q : RequestQueue) (rq : ℕ) : Except Oops RequestQueue :=
  (shannonDiskXferRequest conv c).map fun s =>
    let q := q.after rq s.events
    if s.ret = -enomem then q.requeue rq else q

end Legacy

/-- Requests are dispatched one after another, until none waits or there are no
more `calls`. -/
def serve (dispatch : LreqCall → RequestQueue → ℕ → Except Oops RequestQueue) :
    List LreqCall → RequestQueue → Except Oops RequestQueue
  | [], q => .ok q
  | c :: calls, q =>
      match q.waiting with
      | [] => .ok q
      | rq :: rest => (dispatch c { q with waiting := rest } rq).bind (serve dispatch calls)

/-! ### What the two versions have in common -/

variable {conv}

/-- **The outcome of a transfer.**  Either it returns 0 and the request has been
ended or accepted, or it returns `-ENOMEM` and nothing has been done to it. -/
theorem after_xferRequest {c : LreqCall} {s : Script} (h : shannonDiskXferRequest conv c = .ok s) :
    (s.ret = 0 ∧ ∃ good, ∀ q rq, RequestQueue.after q rq s.events = q.finish rq good) ∨
    (s.ret = 0 ∧ ∀ q rq, RequestQueue.after q rq s.events = q.accept rq) ∨
    (s.ret = -enomem ∧ ∀ q rq, RequestQueue.after q rq s.events = q) := by
  have houtcome := outcome_xferRequest conv h
  simp only [← RequestQueue.after_visible _ _ s.events, Script.ret]
  revert houtcome
  generalize visible s.events = vs, s.next = next
  intro houtcome
  cases houtcome with
  | ended good => exact .inl ⟨by simp, good, fun _ _ => rfl⟩
  | requeued => exact .inr (.inr ⟨by simp, fun _ _ => rfl⟩)
  | accepted sbio => exact .inr (.inl ⟨by simp, fun _ _ => rfl⟩)

theorem after_of_enomem {c : LreqCall} {s : Script} (h : shannonDiskXferRequest conv c = .ok s)
    (hret : s.ret = -enomem) (q : RequestQueue) (rq : ℕ) : q.after rq s.events = q := by
  have hzero : s.ret ≠ 0 := by simp [hret, enomem_ne_zero]
  obtain ⟨hret', -⟩ | ⟨hret', -⟩ | ⟨-, hafter⟩ := after_xferRequest h
  · exact absurd hret' hzero
  · exact absurd hret' hzero
  · exact hafter q rq

/-- Where the request is after a dispatch of blk-mq. -/
theorem Mq.dispatch_eq {c : LreqCall} {s : Script} (h : shannonDiskXferRequest conv c = .ok s)
    (q : RequestQueue) (rq : ℕ) :
    Mq.dispatch conv c q rq
      = .ok (if s.ret = -enomem then q.finish rq false else q.after rq s.events) := by
  simp only [Mq.dispatch, Mq.shannonDiskRequest, h, Except.map]
  split_ifs with hret
  · rw [Mq.settle, after_of_enomem h hret]
  · rfl

/-- Where it is after a turn of the legacy loop. -/
theorem Legacy.dispatch_eq {c : LreqCall} {s : Script} (h : shannonDiskXferRequest conv c = .ok s)
    (q : RequestQueue) (rq : ℕ) :
    Legacy.dispatch conv c q rq
      = .ok (if s.ret = -enomem then q.requeue rq else q.after rq s.events) := by
  simp only [Legacy.dispatch, h, Except.map]
  split_ifs with hret
  · rw [after_of_enomem h hret]
  · rfl

/-! ### Alike -/

variable (conv)

/-- **The two versions treat a request alike**: they leave it in the same place;
when `shannon_disk_xfer_request` returns `-ENOMEM` that is the queue, and otherwise
it has been ended or the core has it. -/
structure TreatedAlike (c : LreqCall) : Prop where
  same : ∀ q rq, Mq.dispatch conv c q rq = Legacy.dispatch conv c q rq
  retried : ∀ s, shannonDiskXferRequest conv c = .ok s → s.ret = -enomem →
    ∀ q rq, Mq.dispatch conv c q rq = .ok (q.requeue rq)
  settled : ∀ s, shannonDiskXferRequest conv c = .ok s → s.ret ≠ -enomem →
    (∃ good, ∀ q rq, Mq.dispatch conv c q rq = .ok (q.finish rq good)) ∨
      ∀ q rq, Mq.dispatch conv c q rq = .ok (q.accept rq)

/-- The call comes as far as the conversion. -/
def Converts (c : LreqCall) : Prop :=
  c.available = true ∧ c.passthrough = false ∧ c.discard = false ∧ c.lreq.rqBytes ≠ 0 ∧
    ¬ (c.readonly = true ∧ c.write = true)

/-- `shannon_convert_lreq` or `shannon_submit_bio` reports `-ENOMEM` for it. -/
def OutOfMemory (c : LreqCall) : Prop :=
  Converts c ∧ ∃ sbio ret out, c.sbio = some sbio ∧
    conv.convertLreq c.sgAlloc (withDir sbio c.write) c.lreq c.logicbSize = .ok (ret, out) ∧
    (ret = -enomem ∨
      ret = 0 ∧ ¬ (out.dmaDir = .toDevice ∧ c.lpmtFails = true) ∧ c.submitRet = -enomem)

variable {conv}

theorem XferRequest.next_freeSbio (ret : ℤ) : (freeSbio ret).next = .requeue ↔ ret = -enomem := by
  rw [freeSbio]
  split_ifs with h <;> simp [h]

/-- Which results of the steps make a request wait again. -/
theorem XferRequest.next_submitConverted (c : LreqCall) (ret : ℤ) (sbio : ShannonBio) :
    (submitConverted c ret sbio).next = .requeue ↔
      ret = -enomem ∨
        ret = 0 ∧ ¬ (sbio.dmaDir = .toDevice ∧ c.lpmtFails = true) ∧ c.submitRet = -enomem := by
  have heio : ¬ -eio = -enomem := by decide
  simp only [submitConverted, freeSgList]
  split_ifs with hret hlpmt hsub
  · simp [next_freeSbio, hret]
  · rw [not_not] at hret
    simp [next_freeSbio, hret, hlpmt, heio, enomem_ne_zero]
  · rw [not_not] at hret
    simp [next_freeSbio, hret, hlpmt, enomem_ne_zero]
  · rw [not_not] at hret hsub
    simp [hret, hsub, enomem_ne_zero]

theorem ret_eq_neg_enomem (s : Script) : s.ret = -enomem ↔ s.next = .requeue := by
  rw [Script.ret]
  split_ifs with h <;> simp [h, enomem_ne_zero]

/-- **When `shannon_disk_xfer_request` returns `-ENOMEM`.** -/
theorem xferRequest_enomem_iff (c : LreqCall) :
    (∃ s, shannonDiskXferRequest conv c = .ok s ∧ s.ret = -enomem) ↔ OutOfMemory conv c := by
  simp only [ret_eq_neg_enomem, OutOfMemory, Converts]
  constructor
  · rintro ⟨s, hs, hnext⟩
    obtain ⟨good, rfl⟩ | ⟨-, -, -, first, last, -, rfl⟩ |
        ⟨hav, hpass, hdis, hsize, hro, sbio, ret, out, hsbio, hconv, rfl⟩ :=
      shannonDiskXferRequest_cases hs
    · cases hnext
    · cases hnext
    · exact ⟨⟨hav, hpass, hdis, hsize, hro⟩, sbio, ret, out, hsbio, hconv,
        (XferRequest.next_submitConverted ..).1 hnext⟩
  · rintro ⟨⟨hav, hpass, hdis, hsize, hro⟩, sbio, ret, out, hsbio, hconv, hmem⟩
    refine ⟨XferRequest.submitConverted c ret out, ?_,
      (XferRequest.next_submitConverted ..).2 hmem⟩
    have hro' : (c.readonly && c.write) = false := by
      rw [← Bool.not_eq_true, Bool.and_eq_true]
      exact hro
    simp [shannonDiskXferRequest, hav, hpass, hdis, hsize, hro', hsbio, hconv, Except.map]

/-- **The two versions treat a request alike unless it runs out of memory.** -/
theorem treatedAlike_iff (conv : Converters) (c : LreqCall) :
    TreatedAlike conv c ↔ ¬ OutOfMemory conv c := by
  rw [← xferRequest_enomem_iff]
  constructor
  · rintro ⟨-, hretried, -⟩ ⟨s, hs, hret⟩
    have hback := hretried s hs hret ⟨[], [], []⟩ 0
    rw [Mq.dispatch_eq hs, if_pos hret] at hback
    simp [RequestQueue.finish, RequestQueue.requeue] at hback
  · intro hmem
    have hret : ∀ s, shannonDiskXferRequest conv c = .ok s → s.ret ≠ -enomem :=
      fun s hs hret => hmem ⟨s, hs, hret⟩
    refine ⟨fun q rq => ?_, fun s hs h => absurd h (hret s hs), fun s hs h => ?_⟩
    · cases hs : shannonDiskXferRequest conv c with
      | error e => simp [Mq.dispatch, Mq.shannonDiskRequest, Legacy.dispatch, hs, Except.map]
      | ok s =>
          rw [Mq.dispatch_eq hs, Legacy.dispatch_eq hs, if_neg (hret s hs), if_neg (hret s hs)]
    · simp only [Mq.dispatch_eq hs, if_neg h, Except.ok.injEq]
      obtain ⟨-, good, hafter⟩ | ⟨-, hafter⟩ | ⟨hret', -⟩ := after_xferRequest hs
      · exact .inl ⟨good, hafter⟩
      · exact .inr hafter
      · exact absurd hret' h

/-- A read of one block for which `shannon_sg_alloc` finds no memory. -/
def starvedCall : LreqCall :=
  { plainLreqCall ⟨0, 4096, [⟨0, 0, 4096⟩]⟩ with sgAlloc := false }

/-- The legacy version puts it back, blk-mq ends it with an error. -/
theorem starvedCall_not_treatedAlike :
    Legacy.dispatch driverConverters starvedCall ⟨[], [], []⟩ 7 = .ok ⟨[7], [], []⟩ ∧
    Mq.dispatch driverConverters starvedCall ⟨[], [], []⟩ 7 = .ok ⟨[], [(7, false)], []⟩ ∧
    ¬ TreatedAlike driverConverters starvedCall := by
  refine ⟨by decide, by decide, fun h => ?_⟩
  have hsame := h.same ⟨[], [], []⟩ 7
  revert hsame
  decide

/-! ### Whole queues -/

/-- **A queue no call of which runs out of memory** is served alike. -/
theorem serve_eq {calls : List LreqCall} (hmem : ∀ c ∈ calls, ¬ OutOfMemory conv c)
    (q : RequestQueue) :
    serve (Mq.dispatch conv) calls q = serve (Legacy.dispatch conv) calls q := by
  induction calls generalizing q with
  | nil => rfl
  | cons c calls ih =>
      have hsame := ((treatedAlike_iff conv c).2 (hmem c (List.mem_cons_self ..))).same
      rw [serve, serve]
      split
      · rfl
      · rw [hsame]
        congr 1
        funext q'
        exact ih (fun c' hc' => hmem c' (List.mem_cons_of_mem _ hc')) q'

/-- A dispatch that keeps the requests there are. -/
def Keeps (dispatch : LreqCall → RequestQueue → ℕ → Except Oops RequestQueue) : Prop :=
  ∀ c q rq q', dispatch c q rq = .ok q' → q'.requests.Perm (rq :: q.requests)

theorem RequestQueue.perm_requeue (q : RequestQueue) (rq : ℕ) :
    (q.requeue rq).requests.Perm (rq :: q.requests) := by
  simp [requests, requeue]

theorem RequestQueue.perm_finish (q : RequestQueue) (rq : ℕ) (good : Bool) :
    (q.finish rq good).requests.Perm (rq :: q.requests) := by
  simp only [requests, finish, List.map_cons, List.append_assoc, List.cons_append]
  exact List.perm_middle

theorem RequestQueue.perm_accept (q : RequestQueue) (rq : ℕ) :
    (q.accept rq).requests.Perm (rq :: q.requests) := by
  simp only [requests, accept]
  exact List.perm_middle

theorem perm_after {c : LreqCall} {s : Script} (h : shannonDiskXferRequest conv c = .ok s)
    (hret : s.ret ≠ -enomem) (q : RequestQueue) (rq : ℕ) :
    (q.after rq s.events).requests.Perm (rq :: q.requests) := by
  obtain ⟨-, good, hafter⟩ | ⟨-, hafter⟩ | ⟨hret', -⟩ := after_xferRequest h
  · rw [hafter]
    exact q.perm_finish rq good
  · rw [hafter]
    exact q.perm_accept rq
  · exact absurd hret' hret

theorem Mq.keeps (conv : Converters) : Keeps (Mq.dispatch conv) := by
  intro c q rq q' h
  obtain ⟨⟨s, status⟩, hs, -⟩ := map_eq_ok.1 h
  obtain ⟨s, hs, -⟩ := map_eq_ok.1 hs
  rw [Mq.dispatch_eq hs, Except.ok.injEq] at h
  subst h
  split_ifs with hret
  · exact q.perm_finish rq false
  · exact perm_after hs hret q rq

theorem Legacy.keeps (conv : Converters) : Keeps (Legacy.dispatch conv) := by
  intro c q rq q' h
  obtain ⟨s, hs, -⟩ := map_eq_ok.1 h
  rw [Legacy.dispatch_eq hs, Except.ok.injEq] at h
  subst h
  split_ifs with hret
  · exact q.perm_requeue rq
  · exact perm_after hs hret q rq

theorem Keeps.serve_perm {dispatch : LreqCall → RequestQueue → ℕ → Except Oops RequestQueue}
    (hkeeps : Keeps dispatch) {calls : List LreqCall} {q q' : RequestQueue}
    (h : serve dispatch calls q = .ok q') : q'.requests.Perm q.requests := by
  induction calls generalizing q with
  | nil =>
      obtain rfl := Except.ok.inj h
      exact .rfl
  | cons c calls ih =>
      rw [serve] at h
      split at h
      · obtain rfl := Except.ok.inj h
        exact .rfl
      · next rq rest hwaiting =>
          obtain ⟨q₁, hq₁, h⟩ := bind_eq_ok.1 h
          have hall : rq :: RequestQueue.requests { q with waiting := rest } = q.requests := by
            simp [RequestQueue.requests, hwaiting]
          exact (ih h).trans (hall ▸ hkeeps c _ rq q₁ hq₁)

/-- **No request is lost or doubled**, by either version: after any number of
dispatches the requests that wait, have been ended or are with the core are those
there were. -/
theorem serve_perm {calls : List LreqCall} {q q' : RequestQueue}
    (h : serve (Mq.dispatch conv) calls q = .ok q' ∨
      serve (Legacy.dispatch conv) calls q = .ok q') : q'.requests.Perm q.requests :=
  h.elim (Mq.keeps conv).serve_perm (Legacy.keeps conv).serve_perm

end Block
end Shannon
