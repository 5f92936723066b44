import Yfs.Rpc.Connection

/-!
# Delivery — PDUs arrive as they were sent

`Flow S R` is the invariant of one direction: as long as the receiver `R` is alive, the frames
that `S` was given and `R` has not accepted are what `R` has of the next one, what is on the wire,
and what `S` has still to write.  When `S` has died in the middle of a PDU the last part is never
written; when `R` has died nothing more is accepted.

It does not matter which thread a PDU in `wpdu_` belongs to: `wpdu_` is only emptied when all of it
is written or nothing will be.
-/

namespace Yfs
namespace Rpc

open Lib
open Wire

variable {T : Type}

/-! ## Frames -/

def Sized (b : Bytes) : Prop :=
  headerSz ≤ b.length ∧ b.length ≤ maxPdu

theorem length_frame {b : Bytes} (h : Sized b) : (frame b).length = b.length := by
  have hlen := h.1
  simp only [frame, setSize, List.length_append, length_wordBytes, List.length_drop, rpcSzSize,
    headerSz] at *
  omega

theorem take_frame (b : Bytes) : (frame b).take rpcSzSize = wordBytes (UInt32.ofNat b.length) := rfl

theorem frame_frame {b : Bytes} (h : Sized b) : frame (frame b) = frame b := by
  unfold frame
  rw [show ((setSize b.length b).length : ℤ) = b.length by exact_mod_cast length_frame h]
  rfl

theorem ntohl_wordBytes {n : ℕ} (h : n ≤ maxPdu) : ntohl (wordBytes (UInt32.ofNat n)) = n := by
  have hsmall : n < 2147483648 := Nat.lt_of_le_of_lt h (by decide)
  have hnat : (UInt32.ofNat n).toNat = n := by
    rw [UInt32.toNat_ofNat']
    exact Nat.mod_eq_of_lt (by omega)
  show (word _ _ _ _).toInt32.toInt = n
  rw [word_lowByte, Int32.toInt, BitVec.toInt_eq_toNat_of_lt]
  · exact congrArg Int.ofNat hnat
  · show 2 * (UInt32.ofNat n).toNat < _
    omega

/-! ## The sender -/

/-- `rest` is what is to be written of the PDU `b`.  Once a byte is written the size is in its
place. -/
structure Loaded (w : Charbuf) (b rest : Bytes) : Prop where
  sized : Sized b
  sz : w.sz = b.length
  nonneg : 0 ≤ w.solong
  le : w.solong ≤ w.sz
  stamped : w.solong ≠ 0 → frame b = b
  rest : rest = (frame b).drop w.solong.toNat

theorem Sized.frame {b : Bytes} (h : Sized b) : Sized (frame b) := by
  unfold Sized at h ⊢
  rwa [length_frame h]

/-- The buffer from which `writepdu` writes. -/
theorem Loaded.stamp {w : Charbuf} {b rest : Bytes} (h : Loaded w b rest) :
    (if w.solong = 0 then setSize w.sz b else b) = Rpc.frame b := by
  split
  · rw [h.sz]
    rfl
  · rename_i hne
    exact (h.stamped hne).symm

/-- The next `n` bytes are written, or none of them. -/
theorem Loaded.wrote {w : Charbuf} {b rest : Bytes} (h : Loaded w b rest) {n : ℕ}
    (hn : (n : ℤ) ≤ w.sz - w.solong) :
    Loaded ⟨some (Rpc.frame b), w.sz, w.solong + n⟩ (Rpc.frame b) (rest.drop n) where
  sized := h.sized.frame
  sz := by rw [length_frame h.sized, ← h.sz]
  nonneg := by
    have hnonneg := h.nonneg
    show 0 ≤ w.solong + n
    omega
  le := by
    show w.solong + n ≤ w.sz
    omega
  stamped _ := frame_frame h.sized
  rest := by
    have hnat : (w.solong + n).toNat = w.solong.toNat + n := by
      have hnonneg := h.nonneg
      omega
    rw [h.rest, frame_frame h.sized, List.drop_drop, hnat]

/-- What an end that is alive has to write. -/
def Sending (w : Charbuf) (rest : Bytes) : Prop :=
  match w.buf with
  | none => rest = []
  | some b => Loaded w b rest

/-- Nothing of the receiving side has changed, and the dead do not come back. -/
structure SameReader (c c' : Connection T) : Prop where
  rpdu : c'.rpdu = c.rpdu
  accepted : c'.accepted = c.accepted
  dead : c'.dead = false → c.dead = false

theorem SameReader.refl (c : Connection T) : SameReader c c :=
  ⟨rfl, rfl, id⟩

theorem SameReader.trans {c₁ c₂ c₃ : Connection T} (h : SameReader c₁ c₂) (h' : SameReader c₂ c₃) :
    SameReader c₁ c₃ :=
  ⟨h'.rpdu.trans h.rpdu, h'.accepted.trans h.accepted, fun hdead => h.dead (h'.dead hdead)⟩

/-- What is known of a thread in `send`: its PDU has a proper size, and it only leaves the mutex to
`block_remove_fd` when the end is dead. -/
def Sender.Fits (dead : Bool) : Sender → Prop
  | .waiting b => Sized b
  | .removing => dead = true
  | _ => True

def Waiting (c : Connection T) : Prop :=
  ∀ t, (c.threads t).Fits c.dead

theorem Sender.Fits.mono {dead dead' : Bool} {p : Sender} (h : p.Fits dead)
    (hdead : dead = true → dead' = true) : p.Fits dead' := by
  cases p with
  | removing => exact hdead h
  | _ => exact h

theorem Waiting.update [DecidableEq T] {c : Connection T} (h : Waiting c) {dead : Bool}
    (hdead : c.dead = true → dead = true) (t : T) {p : Sender} (hp : p.Fits dead) :
    ∀ t', (Function.update c.threads t p t').Fits dead := by
  intro t'
  by_cases ht : t' = t
  · subst ht
    rwa [Function.update_self]
  · rw [Function.update_of_ne ht]
    exact (h t').mono hdead

/-- `c` has been given the PDUs `new` and has written a part of what it had to write. -/
structure Pushed (c c' : Connection T) (new : List Bytes) : Prop extends SameReader c c' where
  waiting : Waiting c → Waiting c'
  sized : ∀ b ∈ new, Sized b
  handed : c'.handed = c.handed ++ new
  wrote : ∀ rest, (c.dead = false → Sending c.wpdu rest) →
    ∃ bs rest', rest ++ (new.map frame).flatten = bs ++ rest' ∧ c'.out = c.out ++ bs ∧
      (c'.dead = false → Sending c'.wpdu rest')

/-- No PDU is new. -/
theorem pushed_nil {c c' : Connection T} (hreader : SameReader c c')
    (hwaiting : Waiting c → Waiting c') (hhanded : c'.handed = c.handed)
    (hwrote : ∀ rest, (c.dead = false → Sending c.wpdu rest) → ∃ bs rest', rest = bs ++ rest' ∧
      c'.out = c.out ++ bs ∧ (c'.dead = false → Sending c'.wpdu rest')) : Pushed c c' [] where
  toSameReader := hreader
  waiting := hwaiting
  sized _ hb := nomatch hb
  handed := by rw [hhanded, List.append_nil]
  wrote rest hrest := by
    rw [List.map_nil, List.flatten_nil, List.append_nil]
    exact hwrote rest hrest

/-- What does not touch the PDU or the stream. -/
theorem pushed_of_eq {c c' : Connection T} (hreader : SameReader c c')
    (hwaiting : Waiting c → Waiting c') (hhanded : c'.handed = c.handed) (hout : c'.out = c.out)
    (hwpdu : c'.dead = false → c'.wpdu = c.wpdu) : Pushed c c' [] := by
  refine pushed_nil hreader hwaiting hhanded fun rest hrest =>
    ⟨[], rest, rfl, by rw [hout, List.append_nil], fun hdead => ?_⟩
  rw [hwpdu hdead]
  exact hrest (hreader.dead hdead)

theorem Pushed.trans {c₁ c₂ c₃ : Connection T} {new new' : List Bytes} (h : Pushed c₁ c₂ new)
    (h' : Pushed c₂ c₃ new') : Pushed c₁ c₃ (new ++ new') where
  toSameReader := h.toSameReader.trans h'.toSameReader
  waiting hc := h'.waiting (h.waiting hc)
  sized b hb := (List.mem_append.1 hb).elim (h.sized b) (h'.sized b)
  handed := by rw [h'.handed, h.handed, List.append_assoc]
  wrote rest hrest := by
    rcases h.wrote rest hrest with ⟨bs, rest', heq, hout, hrest'⟩
    rcases h'.wrote rest' hrest' with ⟨bs', rest'', heq', hout', hrest''⟩
    refine ⟨bs ++ bs', rest'', ?_, by rw [hout', hout, List.append_assoc], hrest''⟩
    rw [List.map_append, List.flatten_append, ← List.append_assoc, heq, List.append_assoc, heq',
      List.append_assoc]

namespace Connection

/-- What `writepdu` can do. -/
theorem writepdu_cases {c c' : Connection T} {w : Write} {ok : Bool}
    (h : c.writepdu w = some (c', ok)) :
    (c' = c ∧ ok = true) ∨
    ∃ b, c.wpdu.buf = some b ∧
      ((∃ n : ℕ, (n : ℤ) ≤ c.wpdu.sz - c.wpdu.solong ∧ ok = true ∧
        c' = { c with
          wpdu := ⟨some (if c.wpdu.solong = 0 then setSize c.wpdu.sz b else b), c.wpdu.sz,
            c.wpdu.solong + n⟩
          out := c.out ++ ((if c.wpdu.solong = 0 then setSize c.wpdu.sz b else b).drop
            c.wpdu.solong.toNat).take n }) ∨
      (ok = true ∧ c' = { c with
        wpdu := { c.wpdu with
          buf := some (if c.wpdu.solong = 0 then setSize c.wpdu.sz b else b) } }) ∨
      (ok = false ∧ c' = { c with
        wpdu := ⟨some (if c.wpdu.solong = 0 then setSize c.wpdu.sz b else b), 0, -1⟩ })) := by
  unfold writepdu at h
  split at h
  · cases h
  · split at h
    · cases h
      exact Or.inl ⟨rfl, rfl⟩
    · rcases Option.bind_eq_some_iff.1 h with ⟨b, hb, h⟩
      refine Or.inr ⟨b, hb, ?_⟩
      cases w with
      | wrote n =>
          dsimp only at h
          split at h
          · rename_i hn
            cases h
            exact Or.inl ⟨n, hn, rfl, rfl⟩
          · cases h
      | again =>
          cases h
          exact Or.inr (Or.inl ⟨rfl, rfl⟩)
      | error =>
          cases h
          exact Or.inr (Or.inr ⟨rfl, rfl⟩)

/-- `writepdu`, and the end that dies when it fails. -/
theorem pushed_writepdu {c c' : Connection T} {w : Write} {ok : Bool} (halive : c.dead = false)
    (h : c.writepdu w = some (c', ok)) :
    Pushed c (if ok then c' else { c' with dead := true }) [] := by
  rcases writepdu_cases h with ⟨rfl, rfl⟩ | ⟨b, hb, hcase⟩
  · exact pushed_of_eq (SameReader.refl c') id rfl rfl fun _ => rfl
  · have hloaded : ∀ rest, Sending c.wpdu rest → Loaded c.wpdu b rest := fun rest hrest => by
      simpa [Sending, hb] using hrest
    rcases hcase with ⟨n, hn, rfl, rfl⟩ | ⟨rfl, rfl⟩ | ⟨rfl, rfl⟩
    · refine pushed_nil ⟨rfl, rfl, id⟩ id rfl fun rest hrest => ?_
      have hl := hloaded rest (hrest halive)
      simp only [if_true, hl.stamp]
      exact ⟨rest.take n, rest.drop n, by simp, by rw [hl.rest], fun _ => hl.wrote hn⟩
    · refine pushed_nil ⟨rfl, rfl, id⟩ id rfl fun rest hrest => ?_
      have hl := hloaded rest (hrest halive)
      have hle := hl.le
      -- `EAGAIN` is a write of nothing
      have hkept := hl.wrote (n := 0) (by omega)
      simp only [Nat.cast_zero, add_zero, List.drop_zero] at hkept
      simp only [if_true, hl.stamp]
      exact ⟨[], rest, by simp, by simp, fun _ => hkept⟩
    · -- the rest will not be written
      refine pushed_nil ⟨rfl, rfl, fun hdead => nomatch hdead⟩
        (fun hc t => (hc t).mono fun _ => rfl) rfl fun rest _ =>
        ⟨[], rest, rfl, by simp, fun hdead => nomatch hdead⟩

variable [DecidableEq T]

/-- A PDU of which nothing more is to be written leaves `wpdu_`. -/
theorem pushed_finish {c : Connection T} (t : T)
    (h : c.dead = false → c.wpdu.solong < 0 ∨ c.wpdu.sz ≤ c.wpdu.solong) :
    Pushed c (c.finish t) [] := by
  refine pushed_nil ⟨rfl, rfl, id⟩ (fun hc => hc.update id t trivial) rfl fun rest hrest =>
    ⟨[], rest, rfl, by simp [finish], fun hdead => ?_⟩
  have hsending := hrest hdead
  show rest = []
  unfold Sending at hsending
  split at hsending
  · exact hsending
  · -- `solong` has reached `sz`
    have hnonneg := hsending.nonneg
    have hend := h hdead
    rw [hsending.rest]
    apply List.drop_eq_nil_of_le
    rw [length_frame hsending.sized]
    have hsz := hsending.sz
    omega

theorem pushed_start {c c' : Connection T} {t : T} {b : Bytes} {w : Write} (hb : Sized b)
    (halive : c.dead = false) (hfree : c.wpdu.buf = none) (h : c.start t b w = some c') :
    Pushed c c' [b] := by
  have hload : Pushed c
      { c with
        wpdu := ⟨some b, b.length, 0⟩
        handed := c.handed ++ [b] } [b] := by
    refine ⟨⟨rfl, rfl, id⟩, id, fun b' hb' => ?_, rfl, fun rest hrest => ?_⟩
    · rw [List.mem_singleton.1 hb']
      exact hb
    · -- everything handed before is written, so the whole frame is what is left
      have hempty : rest = [] := by simpa [Sending, hfree] using hrest halive
      refine ⟨[], frame b, by simp [hempty], by simp, fun _ => ?_⟩
      exact ⟨hb, rfl, Int.le_refl 0, Int.natCast_nonneg _, fun hne => absurd rfl hne, rfl⟩
  rcases Option.bind_eq_some_iff.1 h with ⟨⟨c₁, ok⟩, hwrite, hcase⟩
  have hwritten := hload.trans (pushed_writepdu halive hwrite)
  cases ok with
  | true =>
      simp only [if_true] at hcase hwritten
      split at hcase
      · rename_i hdone
        cases hcase
        exact hwritten.trans (pushed_finish t fun _ => Or.inr (Int.le_of_eq hdone.symm))
      · cases hcase
        exact hwritten.trans (pushed_of_eq ⟨rfl, rfl, id⟩ (fun hc => hc.update id t trivial) rfl rfl
          fun _ => rfl)
  | false =>
      cases hcase
      exact hwritten.trans (pushed_of_eq ⟨rfl, rfl, id⟩ (fun hc => hc.update id t rfl) rfl rfl
        fun _ => rfl)

theorem pushed_await {c c' : Connection T} {t : T} {b : Bytes} {w : Write} (hb : Sized b)
    (h : c.await t b w = some c') : ∃ new, Pushed c c' new := by
  unfold await at h
  split at h
  · cases h
    exact ⟨[], pushed_of_eq ⟨rfl, rfl, id⟩ (fun hc => hc.update id t hb) rfl rfl fun _ => rfl⟩
  · rename_i hbusy
    split at h
    · cases h
      exact ⟨[], pushed_of_eq ⟨rfl, rfl, id⟩ (fun hc => hc.update id t trivial) rfl rfl
        fun _ => rfl⟩
    · rename_i halive
      have halive' : c.dead = false := Bool.of_not_eq_true halive
      have hfree : c.wpdu.buf = none := by
        by_contra hbuf
        exact hbusy ⟨halive', hbuf⟩
      have hcount : Pushed c { c with waiters := c.waiters - 1 } [] :=
        pushed_of_eq ⟨rfl, rfl, id⟩ id rfl rfl fun _ => rfl
      exact ⟨[b], hcount.trans (pushed_start hb halive' hfree h)⟩

theorem pushed_send {c c' : Connection T} {t : T} {b : Bytes} {w : Write} (hb : Sized b)
    (h : c.send t b w = some c') : ∃ new, Pushed c c' new := by
  unfold send at h
  split at h
  · rcases pushed_await hb h with ⟨new, hnew⟩
    have hcount : Pushed c { c with waiters := c.waiters + 1 } [] :=
      pushed_of_eq ⟨rfl, rfl, id⟩ id rfl rfl fun _ => rfl
    exact ⟨new, hcount.trans hnew⟩
  · cases h

/-- The PDU for which a thread waits was given to `send`. -/
theorem pushed_wake {c c' : Connection T} {t : T} {w : Write}
    (hwaiting : Waiting c) (h : c.wake t w = some c') : ∃ new, Pushed c c' new := by
  have hfits := hwaiting t
  unfold wake at h
  split at h
  · cases h
  · rename_i b hb
    rw [hb] at hfits
    exact pushed_await hfits h
  · split at h
    · cases h
      exact ⟨[], pushed_of_eq (SameReader.refl _) id rfl rfl fun _ => rfl⟩
    · rename_i hloop
      cases h
      -- the loop is left: alive, it has written everything
      refine ⟨[], pushed_finish t fun halive => ?_⟩
      by_contra hmore
      exact hloop ⟨halive, by omega, by omega⟩
  · rename_i hr
    cases h
    refine ⟨[], pushed_finish t fun halive => ?_⟩
    have hdead : c.dead = true := by
      rw [hr] at hfits
      exact hfits
    rw [hdead] at halive
    cases halive

omit [DecidableEq T] in
theorem pushed_writeCb {c c' : Connection T} {w : Write} (h : c.writeCb w = some c') :
    Pushed c c' [] := by
  unfold writeCb at h
  split at h
  · cases h
  · rename_i halive
    split at h
    · cases h
      exact pushed_of_eq (SameReader.refl _) id rfl rfl fun _ => rfl
    · rcases Option.bind_eq_some_iff.1 h with ⟨⟨c₁, ok⟩, hwrite, hcase⟩
      have hwritten := pushed_writepdu (Bool.of_not_eq_true halive) hwrite
      cases ok with
      | true =>
          simp only [if_true] at hcase hwritten
          split at hcase
          · cases hcase
          · cases hcase
            exact hwritten
      | false =>
          cases hcase
          exact hwritten

end Connection

/-! ## The receiver -/

/-- The frames of PDUs. -/
def Frames (sent : List Bytes) : Prop :=
  ∀ f ∈ sent, ∃ b, Sized b ∧ f = frame b

theorem Frames.head {sent fs : List Bytes} {f : Bytes} {n : ℕ} (h : Frames sent)
    (hnext : sent.drop n = f :: fs) : ∃ b, Sized b ∧ f = frame b := by
  have hmem : f ∈ sent.drop n := by
    rw [hnext]
    exact List.mem_cons_self
  exact h f (List.mem_of_mem_drop hmem)

theorem Frames.length_pos {sent fs : List Bytes} {f : Bytes} {n : ℕ} (h : Frames sent)
    (hnext : sent.drop n = f :: fs) : 0 < f.length := by
  rcases h.head hnext with ⟨b, hb, rfl⟩
  rw [length_frame hb]
  exact Nat.lt_of_lt_of_le (by decide) hb.1

/-- What an end has received of the first of the frames `todo`. -/
def Receiving (w : Charbuf) (todo : List Bytes) : Prop :=
  match w.buf with
  | none => w.sz = 0
  | some p => ∃ f fs, todo = f :: fs ∧ w.sz = f.length ∧ w.solong = p.length ∧ p.length ≤ f.length

/-- `inp` is on its way to `c` and `rest` is not written yet. -/
structure Incoming (sent : List Bytes) (rest : Bytes) (c : Connection T) (inp : Bytes) : Prop where
  framed : Framed sent c.accepted (c.rpdu.buf.getD []) inp rest
  receiving : Receiving c.rpdu (sent.drop c.accepted.length)

/-- Nothing of the sending side has changed, and the dead do not come back. -/
structure SameWriter (c c' : Connection T) : Prop where
  wpdu : c'.wpdu = c.wpdu
  threads : c'.threads = c.threads
  out : c'.out = c.out
  handed : c'.handed = c.handed
  dead : c.dead = true → c'.dead = true

theorem SameWriter.refl (c : Connection T) : SameWriter c c :=
  ⟨rfl, rfl, rfl, rfl, id⟩

theorem SameWriter.trans {c₁ c₂ c₃ : Connection T} (h : SameWriter c₁ c₂) (h' : SameWriter c₂ c₃) :
    SameWriter c₁ c₃ :=
  ⟨h'.wpdu.trans h.wpdu, h'.threads.trans h.threads, h'.out.trans h.out, h'.handed.trans h.handed,
    fun hdead => h'.dead (h.dead hdead)⟩

/-- The outcome of `readpdu`.  After a failure there is nothing to offer. -/
structure Received (sent : List Bytes) (rest : Bytes) (c : Connection T)
    (r : Connection T × Bytes × Bool) : Prop where
  writer : SameWriter c r.1
  accepted : r.1.accepted = c.accepted
  incoming : r.2.2 = true → Incoming sent rest r.1 r.2.1
  failed : r.2.2 = false → r.1.rpdu.buf = none

namespace Connection

variable {sent : List Bytes} {rest inp : Bytes} {c : Connection T} {size body : Read}
  {r : Connection T × Bytes × Bool}

theorem received_body {p : Bytes} (hp : c.rpdu.buf = some p) (hc : Incoming sent rest c inp)
    (h : c.readBody inp body = some r) : Received sent rest c r := by
  have hreceiving := hc.receiving
  simp only [Receiving, hp] at hreceiving
  rcases hreceiving with ⟨f, fs, hnext, hsz, hsolong, hle⟩
  unfold readBody at h
  split at h
  · rename_i n
    split at h
    · rename_i hn
      cases h
      refine ⟨⟨rfl, rfl, rfl, rfl, id⟩, rfl, fun _ => ⟨?_, ?_⟩, fun hsucc => (nomatch hsucc)⟩
      · have hframed := hc.framed
        simp only [hp, Option.getD_some, Option.map_some] at hframed ⊢
        rw [← List.take_append_drop n inp] at hframed
        exact hframed.read
      · simp only [Receiving, hp, Option.map_some]
        refine ⟨f, fs, hnext, hsz, ?_, ?_⟩
        · rw [hsolong, List.length_append, List.length_take]
          omega
        · rw [List.length_append, List.length_take]
          omega
    · cases h
  · cases h
    exact ⟨SameWriter.refl c, rfl, fun _ => hc, fun hsucc => (nomatch hsucc)⟩
  · -- what was read of the PDU is freed
    cases h
    exact ⟨⟨rfl, rfl, rfl, rfl, id⟩, rfl, fun hsucc => (nomatch hsucc), fun _ => rfl⟩

/-- The first word of a frame that has arrived is its size, and what follows belongs to it. -/
theorem incoming_size (hsent : Frames sent) (hc : Incoming sent rest c inp)
    (hbuf : c.rpdu.buf = none) (hlen : rpcSzSize ≤ inp.length) :
    ntohl (inp.take rpcSzSize) ≤ maxPdu ∧
      Incoming sent rest
        { c with rpdu := ⟨some (inp.take rpcSzSize), ntohl (inp.take rpcSzSize), rpcSzSize⟩ }
        (inp.drop rpcSzSize) := by
  have hframed := hc.framed
  simp only [hbuf, Option.getD_none] at hframed
  have hne : inp ≠ [] := by
    rintro rfl
    cases hlen
  rcases hframed.next (by simpa using hne) with ⟨f, fs, hnext⟩
  rcases hsent.head hnext with ⟨b, hb, rfl⟩
  have hfour : rpcSzSize ≤ (frame b).length := by
    rw [length_frame hb]
    exact Nat.le_trans (by decide) hb.1
  have htake := hframed.take hnext hfour (by simpa using hlen)
  rw [List.nil_append, take_frame] at htake
  have hntohl : ntohl (inp.take rpcSzSize) = (frame b).length := by
    rw [htake, ntohl_wordBytes hb.2, length_frame hb]
  have hword : (inp.take rpcSzSize).length = rpcSzSize := List.length_take_of_le hlen
  rw [← List.take_append_drop rpcSzSize inp] at hframed
  refine ⟨?_, hframed.read, frame b, fs, hnext, hntohl, congrArg Int.ofNat hword.symm, ?_⟩
  · rw [hntohl, length_frame hb]
    exact Int.ofNat_le.2 hb.2
  · rwa [hword]

theorem received_readpdu (hsent : Frames sent) (hc : Incoming sent rest c inp)
    (h : c.readpdu inp size body = some r) : Received sent rest c r := by
  have hreceiving := hc.receiving
  unfold readpdu at h
  cases hbuf : c.rpdu.buf with
  | some p =>
      simp only [Receiving, hbuf] at hreceiving
      rcases hreceiving with ⟨f, fs, hnext, hsz, -, -⟩
      have hpos := hsent.length_pos hnext
      rw [if_neg (by omega)] at h
      exact received_body hbuf hc h
  | none =>
      simp only [Receiving, hbuf] at hreceiving
      rw [if_pos hreceiving] at h
      have hfailed : ∀ inp', Received sent rest c (c, inp', false) := fun inp' =>
        ⟨SameWriter.refl c, rfl, fun hsucc => (nomatch hsucc), fun _ => hbuf⟩
      split at h
      · rename_i n
        split at h
        · rename_i hn
          split at h
          · -- a part of the size is lost, so this end gives up
            cases h
            exact hfailed _
          · rename_i hfour
            obtain rfl : n = rpcSzSize := not_not.1 hfour
            rcases incoming_size hsent hc hbuf hn.2.2 with ⟨hmax, hbegun⟩
            rw [if_neg (Int.not_lt.2 hmax), if_neg (by simp [hbuf])] at h
            have hdone := received_body rfl hbegun h
            exact ⟨⟨hdone.writer.wpdu, hdone.writer.threads, hdone.writer.out, hdone.writer.handed,
              hdone.writer.dead⟩, hdone.accepted, hdone.incoming, hdone.failed⟩
        · cases h
      · cases h
      · cases h
        exact hfailed _

theorem sameWriter_offer (c : Connection T) (accept : Bool) : SameWriter c (c.offer accept) := by
  unfold offer
  split
  · split
    · exact ⟨rfl, rfl, rfl, rfl, id⟩
    · exact SameWriter.refl c
  · exact SameWriter.refl c

/-- A PDU that is refused stays where it is. -/
theorem incoming_offer (hc : Incoming sent rest c inp) (accept : Bool) :
    Incoming sent rest (c.offer accept) inp := by
  cases hbuf : c.rpdu.buf with
  | none => rwa [Connection.offer, hbuf]
  | some p =>
      simp only [Connection.offer, hbuf]
      split
      · rename_i hdone
        have hreceiving := hc.receiving
        simp only [Receiving, hbuf] at hreceiving
        rcases hreceiving with ⟨f, fs, hnext, hsz, hsolong, -⟩
        have hframed := hc.framed
        simp only [hbuf, Option.getD_some] at hframed
        exact ⟨hframed.accept hnext (by omega), rfl⟩
      · exact hc

theorem received_collect (hsent : Frames sent) (hc : Incoming sent rest c inp)
    (h : c.collect inp size body = some r) : Received sent rest c r := by
  unfold collect at h
  split at h
  · exact received_readpdu hsent hc h
  · cases h
    exact ⟨SameWriter.refl c, rfl, fun _ => hc, fun hsucc => (nomatch hsucc)⟩

/-- What `read_cb` does on an end that is alive. -/
theorem readCb_incoming {c' : Connection T} {inp' : Bytes} {accept : Bool} (hsent : Frames sent)
    (halive : c.dead = false) (hc : Incoming sent rest c inp)
    (h : c.readCb inp size body accept = some (c', inp')) :
    SameWriter c c' ∧ (c'.dead = false → Incoming sent rest c' inp') ∧ c'.accepted <+: sent := by
  rw [readCb, if_neg (by simp [halive])] at h
  rcases Option.map_eq_some_iff.1 h with ⟨⟨c₁, inp₁, succ⟩, hcollect, heq⟩
  have hr := received_collect hsent hc hcollect
  cases succ with
  | true =>
      cases heq
      have hoffer := incoming_offer (hr.incoming rfl) accept
      exact ⟨hr.writer.trans (sameWriter_offer c₁ accept), fun _ => hoffer,
        hoffer.framed.got_le⟩
  | false =>
      cases heq
      -- the end is dead and has nothing to offer
      have hnone : c₁.rpdu.buf = none := hr.failed rfl
      have hsame : ({ c₁ with dead := true } : Connection T).offer accept =
          { c₁ with dead := true } := by
        simp only [Connection.offer, hnone]
      have haccepted : c₁.accepted = c.accepted := hr.accepted
      simp only [Bool.false_eq_true, if_false, hsame]
      refine ⟨⟨hr.writer.wpdu, hr.writer.threads, hr.writer.out, hr.writer.handed, fun _ => rfl⟩,
        fun hdead => (nomatch hdead), ?_⟩
      rw [haccepted]
      exact hc.framed.got_le

end Connection

/-! ## One direction -/

/-- PDUs from `S` to `R`. -/
structure Flow (S R : Connection T) : Prop where
  sized : ∀ b ∈ S.handed, Sized b
  got_le : R.accepted <+: S.handed.map frame
  flow : R.dead = false → ∃ rest, Incoming (S.handed.map frame) rest R S.out ∧
    (S.dead = false → Sending S.wpdu rest)

namespace Flow

variable {S S' R R' : Connection T}

theorem new : Flow (T := T) .new .new where
  sized _ hb := nomatch hb
  got_le := List.prefix_rfl
  flow _ := ⟨[], ⟨Framed.nil, rfl⟩, fun _ => rfl⟩

theorem frames (h : Flow S R) : Frames (S.handed.map frame) := by
  intro f hf
  rcases List.mem_map.1 hf with ⟨b, hb, rfl⟩
  exact ⟨b, h.sized b hb, rfl⟩

/-- The sender moves. -/
theorem push {new : List Bytes} (h : Flow S R) (hS : Pushed S S' new) : Flow S' R where
  sized b hb := by
    rw [hS.handed] at hb
    exact (List.mem_append.1 hb).elim (h.sized b) (hS.sized b)
  got_le := by
    rw [hS.handed, List.map_append]
    exact h.got_le.trans (List.prefix_append _ _)
  flow halive := by
    rcases h.flow halive with ⟨rest, hin, hsending⟩
    rcases hS.wrote rest hsending with ⟨bs, rest', hbytes, hout, hsending'⟩
    refine ⟨rest', ⟨?_, ?_⟩, hsending'⟩
    · have hframed := hin.framed.push (new.map frame)
      rw [hbytes] at hframed
      rw [hS.handed, List.map_append, hout]
      exact hframed.write
    · -- new frames come after the one that is being received
      have hreceiving := hin.receiving
      rw [hS.handed, List.map_append, List.drop_append_of_le_length h.got_le.length_le]
      unfold Receiving at hreceiving ⊢
      split
      · rename_i hbuf
        rwa [hbuf] at hreceiving
      · rename_i p hbuf
        rw [hbuf] at hreceiving
        rcases hreceiving with ⟨f, fs, hnext, hrest⟩
        exact ⟨f, fs ++ new.map frame, by rw [hnext, List.cons_append], hrest⟩

/-- The receiver moves as a sender. -/
theorem reader (h : Flow S R) (hR : SameReader R R') : Flow S R' where
  sized := h.sized
  got_le := by
    rw [hR.accepted]
    exact h.got_le
  flow halive := by
    rcases h.flow (hR.dead halive) with ⟨rest, hin, hsending⟩
    refine ⟨rest, ⟨?_, ?_⟩, hsending⟩
    · rw [hR.accepted, hR.rpdu]
      exact hin.framed
    · rw [hR.accepted, hR.rpdu]
      exact hin.receiving

/-- The sender moves as a receiver. -/
theorem writer (h : Flow S R) (hS : SameWriter S S') : Flow S' R where
  sized := by
    rw [hS.handed]
    exact h.sized
  got_le := by
    rw [hS.handed]
    exact h.got_le
  flow halive := by
    rcases h.flow halive with ⟨rest, hin, hsending⟩
    refine ⟨rest, ?_, fun hdead => ?_⟩
    · rw [hS.handed, hS.out]
      exact hin
    · rw [hS.wpdu]
      exact hsending (Bool.of_not_eq_true fun hS' => by rw [hS.dead hS'] at hdead; cases hdead)

/-- The receiver reads. -/
theorem read {size body : Read} {accept : Bool} {inp : Bytes} (h : Flow S R)
    (hread : R.readCb S.out size body accept = some (R', inp)) :
    SameWriter R R' ∧ Flow { S with out := inp } R' := by
  cases hdead : R.dead with
  | true =>
      rw [Connection.readCb, if_pos hdead] at hread
      cases hread
      exact ⟨SameWriter.refl R, h⟩
  | false =>
      rcases h.flow hdead with ⟨rest, hin, hsending⟩
      rcases Connection.readCb_incoming h.frames hdead hin hread with ⟨hwriter, hin', hprefix⟩
      exact ⟨hwriter, h.sized, hprefix, fun halive => ⟨rest, hin' halive, hsending⟩⟩

end Flow

/-! ## Runs -/

/-- Both directions. -/
def Delivering (s : Bool → Connection T) : Prop :=
  ∀ side, Waiting (s side) ∧ Flow (s side) (s !side)

/-- It is enough to look at one end and then at the other. -/
theorem delivering_of {s : Bool → Connection T} (side : Bool) (hside : Waiting (s side))
    (hother : Waiting (s !side)) (hout : Flow (s side) (s !side)) (hin : Flow (s !side) (s side)) :
    Delivering s := by
  intro side'
  by_cases heq : side' = side
  · subst heq
    exact ⟨hside, hout⟩
  · obtain rfl : side' = !side := Bool.eq_not.2 heq
    rw [Bool.not_not]
    exact ⟨hother, hin⟩

/-- An end has done something other than read. -/
theorem Delivering.push {s : Bool → Connection T} {side : Bool} {c' : Connection T}
    {new : List Bytes} (h : Delivering s) (hc : Pushed (s side) c' new) :
    Delivering (Function.update s side c') := by
  have hself : Function.update s side c' side = c' := Function.update_self _ _ _
  have hother : Function.update s side c' (!side) = s !side :=
    Function.update_of_ne (Bool.not_ne_self side) _ _
  have hin := (h !side).2
  rw [Bool.not_not] at hin
  apply delivering_of side
  · rw [hself]
    exact hc.waiting (h side).1
  · rw [hother]
    exact (h !side).1
  · rw [hself, hother]
    exact (h side).2.push hc
  · rw [hself, hother]
    exact hin.reader hc.toSameReader

theorem Delivering.read {s : Bool → Connection T} {side : Bool} {size body : Read} {accept : Bool}
    {c' : Connection T} {inp : Bytes} (h : Delivering s)
    (hread : (s side).readCb (s !side).out size body accept = some (c', inp)) :
    Delivering (Function.update (Function.update s side c') (!side)
      { s !side with out := inp }) := by
  have hother := Function.update_self (!side) { s !side with out := inp }
    (Function.update s side c')
  have hself : Function.update (Function.update s side c') (!side)
      { s !side with out := inp } side = c' := by
    rw [Function.update_of_ne (Bool.not_ne_self side).symm, Function.update_self]
  have hin := (h !side).2
  rw [Bool.not_not] at hin
  rcases hin.read hread with ⟨hwriter, hflow⟩
  apply delivering_of side
  · rw [hself]
    intro t
    rw [hwriter.threads]
    exact ((h side).1 t).mono hwriter.dead
  · rw [hother]
    exact (h !side).1
  · rw [hself, hother]
    exact ((h side).2.writer hwriter).reader ⟨rfl, rfl, id⟩
  · rw [hself, hother]
    exact hflow

theorem delivering_init {s : Bool → Connection T} (h : ConnectionInit s) : Delivering s := by
  subst h
  exact fun _ => ⟨fun _ => trivial, Flow.new⟩

variable [DecidableEq T]

theorem Delivering.step {s s' : Bool → Connection T} {a : Bool × ConnectionAction T}
    (h : Delivering s) (hok : SizedPdu s a) (hstep : connectionStep s a = some s') :
    Delivering s' := by
  rcases a with ⟨side, a⟩
  cases a with
  | send t b w =>
      rcases Option.map_eq_some_iff.1 hstep with ⟨c', hc', rfl⟩
      rcases Connection.pushed_send hok hc' with ⟨new, hnew⟩
      exact h.push hnew
  | wake t w =>
      rcases Option.map_eq_some_iff.1 hstep with ⟨c', hc', rfl⟩
      rcases Connection.pushed_wake (h side).1 hc' with ⟨new, hnew⟩
      exact h.push hnew
  | writeCb w =>
      rcases Option.map_eq_some_iff.1 hstep with ⟨c', hc', rfl⟩
      exact h.push (Connection.pushed_writeCb hc')
  | readCb size body accept =>
      rcases Option.map_eq_some_iff.1 hstep with ⟨r, hr, rfl⟩
      exact h.read hr
  | closeconn =>
      cases hstep
      exact h.push (pushed_of_eq ⟨rfl, rfl, fun hdead => (nomatch hdead)⟩
        (fun hc t => (hc t).mono fun _ => rfl) rfl rfl fun hdead => (nomatch hdead))

/-- The PDUs that `got_pdu` has taken at one end are the first of those that were in `wpdu_` at the
other, in that order and with their bytes, of which the first four are the size.  This is so for
any number of threads, however the reads and writes come out, and whichever PDUs are refused how
often. -/
theorem accepted_prefix_of_handed {s : Bool → Connection T}
    (h : Reach ConnectionInit connectionStep SizedPdu s) (side : Bool) :
    (s !side).accepted <+: (s side).handed.map frame := by
  have hdelivering := Reach.invariant (I := Delivering) (fun _ => delivering_init)
    (fun _ _ _ hs hok hstep => hs.step hok hstep) h
  exact (hdelivering side).2.got_le

/-- Two threads send; the first PDU is written and read in pieces, and refused once. -/
def twoSenders : List (Bool × ConnectionAction Bool) :=
  [(false, .send false (List.replicate 24 1) (.wrote 3)),
    (false, .send true (List.replicate 25 2) .again),
    (false, .writeCb .again),
    (false, .writeCb (.wrote 21)),
    (true, .readCb (.got 4) (.got 10) true),
    (false, .wake false .again),
    (true, .readCb .error (.got 10) false),
    (false, .wake true (.wrote 25)),
    (true, .readCb .error .error true),
    (true, .readCb (.got 4) (.got 21) true)]

theorem accepted_prefix_of_handed_twoSenders :
    ∃ s : Bool → Connection Bool,
      (s true).accepted = [frame (List.replicate 24 1), frame (List.replicate 25 2)] ∧
        (s true).accepted <+: (s false).handed.map frame := by
  have hrun : ∃ s : Bool → Connection Bool, Reach ConnectionInit connectionStep SizedPdu s ∧
      (s true).accepted = [frame (List.replicate 24 1), frame (List.replicate 25 2)] :=
    Reach.exists_of_runFrom
      (P := fun s : Bool → Connection Bool =>
        (s true).accepted = [frame (List.replicate 24 1), frame (List.replicate 25 2)])
      twoSenders rfl (by decide +kernel)
  rcases hrun with ⟨s, hs, haccepted⟩
  exact ⟨s, haccepted, accepted_prefix_of_handed hs false⟩

end Rpc
end Yfs
