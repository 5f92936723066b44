import Yfs.Rpc.Delivery

/-!
# Overrun — what `readpdu` asks `read` for

The other end of a connection may be anybody: `Receiver` is one end with the bytes that have
arrived and are not read yet, and any bytes may arrive at any time.  Beside the state stands what
each `read` of `readpdu` was asked for and how much room there was.

The length word is an `int` that is only bounded from above.  One that is smaller than itself makes
`sz - solong` negative, and `read` takes it for a huge number.
-/

namespace Yfs
namespace Rpc

open Lib

open Wire

/-- What a `read` is asked for, as an `int`, and the room from its pointer to the end of the
memory. -/
structure Ask where
  count : ℤ
  room : ℤ
  deriving DecidableEq, Repr

def Ask.Within (a : Ask) : Prop :=
  0 ≤ a.count ∧ a.count ≤ a.room

section

variable [DecidableEq T]

instance (a : Ask) : Decidable a.Within :=
  inferInstanceAs (Decidable (0 ≤ a.count ∧ a.count ≤ a.room))

/-- `malloc(sz + sizeof(sz))`: the sum is a `size_t`. -/
def allocated (sz : ℤ) : ℤ :=
  (sz + rpcSzSize) % 18446744073709551616

/-- `read(fd_, rpdu_.buf + rpdu_.solong, rpdu_.sz - rpdu_.solong)`. -/
def Charbuf.ask (w : Charbuf) : Ask where
  count := w.sz - w.solong
  room := allocated w.sz - w.solong

/-- The length word of the next PDU, when `read` gives all of it and it is not too big. -/
def lengthWord (inp : Bytes) (size : Read) : Option ℤ :=
  match size with
  | .got n =>
      if n = rpcSzSize ∧ n ≤ inp.length ∧ ntohl (inp.take n) ≤ maxPdu then
        some (ntohl (inp.take n))
      else
        none
  | _ => none

/-- What `rpdu_` is when the length word has been read. -/
def Charbuf.started (inp : Bytes) (sz : ℤ) : Charbuf where
  buf := some (inp.take rpcSzSize)
  sz := sz
  solong := rpcSzSize

end

namespace Connection

variable {T : Type}

/-- The `read`s of `readpdu`: the length word goes to an `int` on the stack, the rest to `buf`. -/
def readpduAsks (c : Connection T) (inp : Bytes) (size : Read) : List Ask :=
  if c.rpdu.sz = 0 then
    ⟨rpcSzSize, rpcSzSize⟩ ::
      ((lengthWord inp size).map fun sz => (Charbuf.started inp sz).ask).toList
  else
    [c.rpdu.ask]

/-- The `read`s of `read_cb`. -/
def readCbAsks (c : Connection T) (inp : Bytes) (size : Read) : List Ask :=
  if c.dead then []
  else if c.rpdu.buf = none ∨ c.rpdu.solong < c.rpdu.sz then c.readpduAsks inp size
  else []

/-- With a length word `readpdu` goes on to the body. -/
theorem readpdu_of_lengthWord {c : Connection T} {inp : Bytes} {size : Read} {sz : ℤ}
    (hrpdu : c.rpdu = .null) (h : lengthWord inp size = some sz) (body : Read) :
    c.readpdu inp size body =
      readBody { c with rpdu := .started inp sz } (inp.drop rpcSzSize) body := by
  cases size with
  | got n =>
      simp only [lengthWord] at h
      split at h
      · rename_i hword
        obtain ⟨rfl, hlen, hmax⟩ := hword
        cases h
        have hpos : 0 < rpcSzSize := by decide
        simp [readpdu, hrpdu, Charbuf.null, hpos, hlen, Int.not_lt.mpr hmax, Charbuf.started]
      · cases h
  | again | error => cases h

/-- Without one it gives up before the body. -/
theorem readpdu_of_not_lengthWord {c : Connection T} {inp : Bytes} {size body : Read}
    {r : Connection T × Bytes × Bool} (hrpdu : c.rpdu = .null) (hword : lengthWord inp size = none)
    (h : c.readpdu inp size body = some r) : r.1 = c := by
  have hsz : c.rpdu.sz = 0 := by rw [hrpdu]; rfl
  unfold readpdu at h
  rw [if_pos hsz] at h
  cases size with
  | got n =>
      simp only [lengthWord, ite_eq_right_iff, reduceCtorEq, imp_false, not_and] at hword h
      split at h
      · rename_i hgot
        split at h
        · cases h
          rfl
        · rename_i hn
          split at h
          · cases h
            rfl
          · rename_i hmax
            exact absurd (Int.not_lt.mp hmax) (hword (not_not.mp hn) hgot.2.2)
      · cases h
  | again => cases h
  | error =>
      cases h
      rfl

end Connection

/-! ## One end and any peer -/

section Receiver

variable {T : Type}

/-- One end, what has arrived for it, and what its `read`s were asked for. -/
structure Receiver (T : Type) where
  conn : Connection T
  inp : Bytes
  asked : List Ask

inductive ReceiverAction (T : Type)
  /-- Bytes arrive, any bytes. -/
  | arrive (bs : Bytes)
  | act (a : ConnectionAction T)

section

variable [DecidableEq T]

def receiverStep (s : Receiver T) : ReceiverAction T → Option (Receiver T)
  | .arrive bs => some { s with inp := s.inp ++ bs }
  | .act (.send t b w) => (s.conn.send t b w).map fun c => { s with conn := c }
  | .act (.wake t w) => (s.conn.wake t w).map fun c => { s with conn := c }
  | .act (.writeCb w) => (s.conn.writeCb w).map fun c => { s with conn := c }
  | .act (.readCb size body accept) =>
      (s.conn.readCb s.inp size body accept).map fun r =>
        ⟨r.1, r.2, s.asked ++ s.conn.readCbAsks s.inp size⟩
  | .act .closeconn => some { s with conn := s.conn.closeconn }

def ReceiverInit (s : Receiver T) : Prop :=
  s = ⟨.new, [], []⟩

/-- A length word that is read counts at least itself. -/
def LengthCountsItself (s : Receiver T) : ReceiverAction T → Prop
  | .act (.readCb size _ _) =>
      s.conn.dead = false → s.conn.rpdu.sz = 0 →
        ∀ sz ∈ lengthWord s.inp size, (rpcSzSize : ℤ) ≤ sz
  | _ => True

instance (s : Receiver T) : ∀ a, Decidable (LengthCountsItself s a)
  | .act (.readCb size _ _) =>
      inferInstanceAs (Decidable (s.conn.dead = false → s.conn.rpdu.sz = 0 →
        ∀ sz ∈ lengthWord s.inp size, (rpcSzSize : ℤ) ≤ sz))
  | .act (.send _ _ _) => isTrue trivial
  | .act (.wake _ _) => isTrue trivial
  | .act (.writeCb _) => isTrue trivial
  | .act .closeconn => isTrue trivial
  | .arrive _ => isTrue trivial

end

/-! ## The invariant -/

/-- Empty, or with its length word and not more than its length. -/
def Charbuf.Fits (w : Charbuf) : Prop :=
  w = .null ∨ (rpcSzSize ≤ w.solong ∧ w.solong ≤ w.sz ∧ w.sz ≤ maxPdu)

theorem Charbuf.Fits.ask_within {w : Charbuf} (h : w.Fits) (hsz : w.sz ≠ 0) : w.ask.Within := by
  rcases h with rfl | ⟨hword, hle, hmax⟩
  · exact absurd rfl hsz
  · have hsmall : allocated w.sz = w.sz + rpcSzSize := by
      have hpos : (0 : ℤ) ≤ w.sz + rpcSzSize := by omega
      refine Int.emod_eq_of_lt hpos (Int.lt_of_le_of_lt (Int.add_le_add_right hmax _) ?_)
      decide
    simp only [Ask.Within, ask, hsmall]
    omega

theorem fits_started {inp : Bytes} {size : Read} {sz : ℤ} (h : lengthWord inp size = some sz)
    (hsz : rpcSzSize ≤ sz) : (Charbuf.started inp sz).Fits := by
  have hmax : sz ≤ maxPdu := by
    cases size with
    | got n =>
        simp only [lengthWord] at h
        split at h
        · rename_i hword
          cases h
          exact hword.2.2
        · cases h
    | again | error => cases h
  exact .inr ⟨Int.le_refl _, hsz, hmax⟩

namespace Connection

theorem fits_readBody {c : Connection T} {inp : Bytes} {body : Read}
    {r : Connection T × Bytes × Bool} (hc : c.rpdu.Fits) (h : c.readBody inp body = some r) :
    r.1.rpdu.Fits := by
  cases body with
  | got n =>
      simp only [readBody] at h
      split at h
      · rename_i hgot
        cases h
        obtain ⟨hpos, -, hn⟩ := hgot
        rcases hc with hnull | ⟨hword, hle, hmax⟩
        · -- an empty buffer leaves no room for a byte
          rw [hnull] at hn
          simp only [Charbuf.null] at hn
          omega
        · refine .inr ⟨?_, ?_, hmax⟩
          · show (rpcSzSize : ℤ) ≤ c.rpdu.solong + n
            omega
          · show c.rpdu.solong + n ≤ c.rpdu.sz
            omega
      · cases h
  | again =>
      cases h
      exact hc
  | error =>
      cases h
      exact .inl rfl

theorem fits_readpdu {c : Connection T} {inp : Bytes} {size body : Read}
    {r : Connection T × Bytes × Bool} (hc : c.rpdu.Fits)
    (hword : c.rpdu.sz = 0 → ∀ sz ∈ lengthWord inp size, (rpcSzSize : ℤ) ≤ sz)
    (h : c.readpdu inp size body = some r) : r.1.rpdu.Fits := by
  -- an empty `rpdu_` is one whose length word is still to come
  rcases hc with hnull | hc
  · have hsz : c.rpdu.sz = 0 := by rw [hnull]; rfl
    cases hlen : lengthWord inp size with
    | some sz =>
        rw [readpdu_of_lengthWord hnull hlen] at h
        exact fits_readBody (fits_started hlen (hword hsz sz hlen)) h
    | none =>
        rw [readpdu_of_not_lengthWord hnull hlen h]
        exact .inl hnull
  · have hsz : c.rpdu.sz ≠ 0 := by
      have hpos : (0 : ℤ) < rpcSzSize := by decide
      omega
    unfold readpdu at h
    rw [if_neg hsz] at h
    exact fits_readBody (.inr hc) h

theorem fits_offer {c : Connection T} (hc : c.rpdu.Fits) (accept : Bool) :
    (c.offer accept).rpdu.Fits := by
  unfold offer
  split
  · split
    · exact .inl rfl
    · exact hc
  · exact hc

theorem fits_readCb {c : Connection T} {inp : Bytes} {size body : Read} {accept : Bool}
    {r : Connection T × Bytes} (hc : c.rpdu.Fits)
    (hword : c.dead = false → c.rpdu.sz = 0 →
      ∀ sz ∈ lengthWord inp size, (rpcSzSize : ℤ) ≤ sz)
    (h : c.readCb inp size body accept = some r) : r.1.rpdu.Fits := by
  unfold readCb at h
  split at h
  · cases h
    exact hc
  · rename_i hdead
    rcases Option.map_eq_some_iff.1 h with ⟨q, hq, rfl⟩
    have hfits : q.1.rpdu.Fits := by
      unfold collect at hq
      split at hq
      · exact fits_readpdu hc (hword (Bool.not_eq_true _ ▸ hdead)) hq
      · cases hq
        exact hc
    refine fits_offer ?_ accept
    split <;> exact hfits

theorem within_readCbAsks {c : Connection T} {inp : Bytes} {size : Read} (hc : c.rpdu.Fits)
    (hword : c.dead = false → c.rpdu.sz = 0 →
      ∀ sz ∈ lengthWord inp size, (rpcSzSize : ℤ) ≤ sz) :
    ∀ a ∈ c.readCbAsks inp size, a.Within := by
  intro a ha
  unfold readCbAsks readpduAsks at ha
  split at ha
  · cases ha
  · rename_i hdead
    split at ha
    · split at ha
      · rename_i hsz
        rcases List.mem_cons.1 ha with rfl | ha
        · -- the length word itself
          exact ⟨by decide, Int.le_refl _⟩
        · rcases Option.map_eq_some_iff.1 (Option.mem_toList.1 ha) with ⟨sz, hlen, rfl⟩
          have hle := hword (Bool.not_eq_true _ ▸ hdead) hsz sz hlen
          refine (fits_started hlen hle).ask_within fun hzero => ?_
          have hpos : (0 : ℤ) < rpcSzSize := by decide
          have hsz' : sz = 0 := hzero
          omega
      · rename_i hsz
        rw [List.mem_singleton.1 ha]
        exact hc.ask_within hsz
    · cases ha

/-! What else happens at this end leaves `rpdu_` alone. -/

theorem rpdu_writepdu {c : Connection T} {w : Write} {r : Connection T × Bool}
    (h : c.writepdu w = some r) : r.1.rpdu = c.rpdu := by
  rcases r with ⟨c', ok⟩
  rcases writepdu_cases h with ⟨heq, -⟩ | ⟨b, -, hcase⟩
  · rw [heq]
  · rcases hcase with ⟨n, -, -, heq⟩ | ⟨-, heq⟩ | ⟨-, heq⟩ <;> rw [heq]

theorem rpdu_writeCb {c c' : Connection T} {w : Write} (h : c.writeCb w = some c') :
    c'.rpdu = c.rpdu := by
  unfold writeCb at h
  split at h
  · cases h
  · split at h
    · cases h
      rfl
    · rcases Option.bind_eq_some_iff.1 h with ⟨r, hr, hc'⟩
      have hrpdu := rpdu_writepdu hr
      split at hc'
      · split at hc'
        · cases hc'
        · cases hc'
          exact hrpdu
      · cases hc'
        exact hrpdu

variable [DecidableEq T]

theorem rpdu_start {c c' : Connection T} {t : T} {b : Bytes} {w : Write}
    (h : c.start t b w = some c') : c'.rpdu = c.rpdu := by
  rcases Option.bind_eq_some_iff.1 h with ⟨r, hr, hc'⟩
  have hrpdu := rpdu_writepdu hr
  split at hc'
  · split at hc' <;> cases hc' <;> exact hrpdu
  · cases hc'
    exact hrpdu

theorem rpdu_await {c c' : Connection T} {t : T} {b : Bytes} {w : Write}
    (h : c.await t b w = some c') : c'.rpdu = c.rpdu := by
  unfold await at h
  split at h
  · cases h
    rfl
  · split at h
    · cases h
      rfl
    · have hrpdu := rpdu_start h
      exact hrpdu

theorem rpdu_send {c c' : Connection T} {t : T} {b : Bytes} {w : Write}
    (h : c.send t b w = some c') : c'.rpdu = c.rpdu := by
  unfold send at h
  split at h
  · have hrpdu := rpdu_await h
    exact hrpdu
  · cases h

theorem rpdu_wake {c c' : Connection T} {t : T} {w : Write} (h : c.wake t w = some c') :
    c'.rpdu = c.rpdu := by
  unfold wake at h
  split at h
  · cases h
  · exact rpdu_await h
  · split at h <;> cases h <;> rfl
  · cases h
    rfl

end Connection

/-- What is kept: the buffer fits, and so did everything that was asked for. -/
structure Receiver.Safe (s : Receiver T) : Prop where
  fits : s.conn.rpdu.Fits
  within : ∀ a ∈ s.asked, a.Within

/-- Each `read` was asked for a number of bytes that is not negative and for which there was room,
and what has been read of a PDU is its length word at least and the PDU at most. -/
def Receiver.InBounds (s : Receiver T) : Prop :=
  (∀ a ∈ s.asked, 0 ≤ a.count ∧ a.count ≤ a.room) ∧
    (s.conn.rpdu.buf ≠ none →
      rpcSzSize ≤ s.conn.rpdu.solong ∧ s.conn.rpdu.solong ≤ s.conn.rpdu.sz)

theorem Receiver.Safe.inBounds {s : Receiver T} (h : s.Safe) : s.InBounds := by
  refine ⟨h.within, fun hbuf => ?_⟩
  rcases h.fits with hnull | hfits
  · exact absurd (congrArg Charbuf.buf hnull) hbuf
  · exact ⟨hfits.1, hfits.2.1⟩

/-- A length word below 4 makes the next `read` ask for less than nothing. -/
theorem Connection.negative_readCbAsks {c : Connection T} {inp : Bytes} {size : Read} {sz : ℤ}
    (hc : c.rpdu.Fits) (hdead : c.dead = false) (hsz : c.rpdu.sz = 0)
    (hlen : lengthWord inp size = some sz) (hlt : sz < rpcSzSize) :
    ∃ a ∈ c.readCbAsks inp size, a.count < 0 := by
  have hnull : c.rpdu = .null := by
    rcases hc with hnull | ⟨hword, hle, -⟩
    · exact hnull
    · have hpos : (0 : ℤ) < rpcSzSize := by decide
      omega
  refine ⟨(Charbuf.started inp sz).ask, ?_, ?_⟩
  · simp [readCbAsks, readpduAsks, hdead, hnull, Charbuf.null, hlen]
  · show sz - (rpcSzSize : ℤ) < 0
    omega

variable [DecidableEq T]

theorem Receiver.Safe.step {s s' : Receiver T} {a : ReceiverAction T} (h : s.Safe)
    (hok : LengthCountsItself s a) (hstep : receiverStep s a = some s') : s'.Safe := by
  have hsame : ∀ c : Connection T, c.rpdu = s.conn.rpdu → Safe { s with conn := c } :=
    fun c hc => ⟨by rw [hc]; exact h.fits, h.within⟩
  cases a with
  | arrive bs =>
      cases hstep
      exact ⟨h.fits, h.within⟩
  | act a =>
      cases a with
      | send t b w =>
          rcases Option.map_eq_some_iff.1 hstep with ⟨c, hc, rfl⟩
          exact hsame c (Connection.rpdu_send hc)
      | wake t w =>
          rcases Option.map_eq_some_iff.1 hstep with ⟨c, hc, rfl⟩
          exact hsame c (Connection.rpdu_wake hc)
      | writeCb w =>
          rcases Option.map_eq_some_iff.1 hstep with ⟨c, hc, rfl⟩
          exact hsame c (Connection.rpdu_writeCb hc)
      | readCb size body accept =>
          rcases Option.map_eq_some_iff.1 hstep with ⟨r, hr, rfl⟩
          refine ⟨Connection.fits_readCb h.fits hok hr, fun a ha => ?_⟩
          rcases List.mem_append.1 ha with ha | ha
          · exact h.within a ha
          · exact Connection.within_readCbAsks h.fits hok a ha
      | closeconn =>
          cases hstep
          exact hsame _ rfl

theorem Receiver.Safe.lengthCountsItself {s s' : Receiver T} {a : ReceiverAction T} (h : s.Safe)
    (hstep : receiverStep s a = some s') (hbounds : s'.InBounds) : LengthCountsItself s a := by
  cases a with
  | arrive bs => trivial
  | act a =>
      cases a with
      | readCb size body accept =>
          rcases Option.map_eq_some_iff.1 hstep with ⟨r, -, rfl⟩
          intro hdead hsz sz hlen
          by_contra hlt
          obtain ⟨a, ha, hneg⟩ := Connection.negative_readCbAsks h.fits hdead hsz hlen
            (Int.not_le.mp hlt)
          have hnonneg := (hbounds.1 a (List.mem_append_right _ ha)).1
          omega
      | _ => trivial

/-- As long as every length word that is read is at least 4, no `read` overruns the buffer; and the
next step keeps it so exactly if it does not read a smaller one. -/
theorem readpdu_within {s : Receiver T} (h : Reach ReceiverInit receiverStep LengthCountsItself s) :
    s.InBounds ∧
      ∀ a s', receiverStep s a = some s' → (s'.InBounds ↔ LengthCountsItself s a) := by
  have hsafe : s.Safe := by
    refine Reach.invariant (I := Receiver.Safe) ?_ (fun s a t hs hok hst => hs.step hok hst) h
    rintro s rfl
    exact ⟨.inl rfl, fun a ha => nomatch ha⟩
  exact ⟨hsafe.inBounds, fun a s' hstep =>
    ⟨hsafe.lengthCountsItself hstep, fun hok => (hsafe.step hok hstep).inBounds⟩⟩

/-- A PDU of 8 bytes that comes in two pieces: 4 bytes are asked for, and then 2. -/
theorem readpdu_within_pieces :
    ∃ s : Receiver Unit, Reach ReceiverInit receiverStep LengthCountsItself s ∧
      s.asked = [⟨4, 4⟩, ⟨4, 8⟩, ⟨2, 6⟩] ∧ s.InBounds := by
  obtain ⟨s, hreach, hasked⟩ :
      ∃ s : Receiver Unit, Reach ReceiverInit receiverStep LengthCountsItself s ∧
        s.asked = [⟨4, 4⟩, ⟨4, 8⟩, ⟨2, 6⟩] :=
    Reach.exists_of_runFrom
      (P := fun s : Receiver Unit => s.asked = [⟨4, 4⟩, ⟨4, 8⟩, ⟨2, 6⟩])
      [.arrive [0, 0, 0, 8, 1, 2], .act (.readCb (.got 4) (.got 2) false), .arrive [3, 4],
        .act (.readCb .error (.got 2) true)] rfl (by decide +kernel)
  exact ⟨s, hreach, hasked, (readpdu_within hreach).1⟩

/-- The length word 0: there are 4 bytes of memory, all of them used, and `read` is asked for
-4.  The length word `ff ff ff ff` leaves 3 bytes of memory for the 4 that are copied there. -/
theorem read_asked_for_negative :
    (∃ s : Receiver Unit, Reach ReceiverInit receiverStep anyStep s ∧
      s.asked = [⟨4, 4⟩, ⟨-4, 0⟩] ∧ s.conn.rpdu.buf ≠ none ∧ s.conn.rpdu.sz < s.conn.rpdu.solong) ∧
    (∃ s : Receiver Unit, Reach ReceiverInit receiverStep anyStep s ∧
      s.asked = [⟨4, 4⟩, ⟨-5, -1⟩]) := by
  constructor
  · exact Reach.exists_of_runFrom
      (P := fun s : Receiver Unit => s.asked = [⟨4, 4⟩, ⟨-4, 0⟩] ∧ s.conn.rpdu.buf ≠ none ∧
        s.conn.rpdu.sz < s.conn.rpdu.solong)
      [.arrive [0, 0, 0, 0, 1], .act (.readCb (.got 4) (.got 1) true)] rfl (by decide +kernel)
  · exact Reach.exists_of_runFrom
      (P := fun s : Receiver Unit => s.asked = [⟨4, 4⟩, ⟨-5, -1⟩])
      [.arrive [255, 255, 255, 255], .act (.readCb (.got 4) .again true)] rfl (by decide +kernel)

end Receiver
end Rpc
end Yfs
