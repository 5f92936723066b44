import Yfs.Extent.Cache

/-!
# Attributes — what reading does to them

`getattr`, `get` and `put` through the cache, while the server answers an extent always the same.
The attributes of an entry are written on four paths: `put` and a `get` that asks the server make
them up from the clock, a `get` from the cache sets the access time only, and `getattr` takes the
server's.

So a `get` between two `getattr` changes the modification and change time of the extent exactly
when the first `getattr` left an entry without contents, which the `get` then fills
(`attributes_stay_iff`).
-/

namespace Yfs
namespace Extent

/-- What the server answers to `get` and `getattr`; `none` is any status but `OK`. -/
structure Answers where
  get : ExtentId → Option Bytes
  getattr : ExtentId → Option Attr

inductive Request
  | getattr (eid : ExtentId)
  | get (eid : ExtentId)
  | put (eid : ExtentId) (buf : Bytes)
  deriving DecidableEq, Repr

def Request.eid : Request → ExtentId
  | getattr eid => eid
  | get eid => eid
  | put eid _ => eid

namespace Cache

/-- `extent_client_cache::getattr`. -/
def getattr (c : Cache) (srv : Answers) (eid : ExtentId) : Cache × Option Attr :=
  match c.getattrStart eid with
  | .call =>
      match srv.getattr eid with
      | none => (c, none)
      | some a => (c.getattrFill eid a, some a)
  | .noent => (c, none)
  | .hit a => (c, some a)

/-- `extent_client_cache::get`. -/
def get (c : Cache) (srv : Answers) (eid : ExtentId) (now : UInt32) : Cache × Option Bytes :=
  match c.getStart eid now with
  | .call =>
      match srv.get eid with
      | none => (c, none)
      | some buf => (c.getFill eid buf now, some buf)
  | .noent => (c, none)
  | .hit c' buf => (c', some buf)

/-- A call at the time `now`. -/
def request (c : Cache) (srv : Answers) (r : Request × UInt32) : Cache :=
  match r.1 with
  | .getattr eid => (c.getattr srv eid).1
  | .get eid => (c.get srv eid r.2).1
  | .put eid buf => (c.put eid buf r.2).1

def requests (c : Cache) (srv : Answers) (rs : List (Request × UInt32)) : Cache :=
  rs.foldl (fun c r => c.request srv r) c

/-- The times of the `get`s of an extent. -/
def getTimes (eid : ExtentId) (rs : List (Request × UInt32)) : List UInt32 :=
  (rs.filter fun r => r.1 = .get eid).map Prod.snd

/-! ## One call -/

variable {c : Cache} {srv : Answers} {eid : ExtentId}

theorem request_of_ne {r : Request × UInt32} (hne : eid ≠ r.1.eid) :
    c.request srv r eid = c eid := by
  obtain ⟨r, now⟩ := r
  cases r with
  | getattr i =>
      have hi : eid ≠ i := hne
      simp only [request, getattr]
      split
      · split
        · rfl
        · exact set_of_ne _ _ hi
      · rfl
      · rfl
  | get i =>
      have hi : eid ≠ i := hne
      cases hc : c i with
      | none =>
          cases hsrv : srv.get i <;> simp [request, get, getStart, getFill, hc, hsrv, hi]
      | some e =>
          cases hst : e.state <;> cases hsrv : srv.get i <;>
            simp [request, get, getStart, getFill, hc, hst, hsrv, hi]
  | put i buf =>
      have hi : eid ≠ i := hne
      simp only [request, put]
      split
      · rfl
      · exact set_of_ne _ _ hi

/-- The attributes are known: `getattr` answers from the entry. -/
theorem getattr_of_entry {e : EidContent} (hc : c eid = some e) (hst : e.state ≠ .remove) :
    c.getattr srv eid = (c, some e.attr) := by
  simp [getattr, getattrStart, hc, hst]

/-- After a `getattr` that answered there is an entry with these attributes. -/
theorem entry_of_getattr {c' : Cache} {a : Attr} (h : c.getattr srv eid = (c', some a)) :
    ∃ e, c' eid = some e ∧ e.attr = a ∧ e.state ≠ .remove := by
  cases hc : c eid with
  | none =>
      cases hsrv : srv.getattr eid with
      | none => simp [getattr, getattrStart, hc, hsrv] at h
      | some a' =>
          simp only [getattr, getattrStart, hc, hsrv, Prod.mk.injEq, Option.some.injEq] at h
          obtain ⟨rfl, rfl⟩ := h
          exact ⟨_, set_self _ _ _, rfl, by simp⟩
  | some e =>
      by_cases hst : e.state = .remove
      · simp [getattr, getattrStart, hc, hst] at h
      · rw [getattr_of_entry hc hst] at h
        obtain ⟨rfl, heq⟩ := Prod.mk.inj h
        exact ⟨e, hc, Option.some.inj heq, hst⟩

theorem request_getattr_of_entry {e : EidContent} (hc : c eid = some e) (hst : e.state ≠ .remove)
    (now : UInt32) : c.request srv (.getattr eid, now) = c := by
  simp only [request, getattr_of_entry hc hst]

/-- A `get` of an entry with contents sets its access time. -/
theorem request_get_of_contents {e : EidContent} (hc : c eid = some e)
    (hst : e.state = .dirty ∨ e.state = .consistent) (now : UInt32) :
    c.request srv (.get eid, now) eid = some (e.touch now) := by
  rcases hst with hst | hst <;> simp [request, get, getStart, hc, hst]

/-- A `get` of an entry without contents makes new attributes, or does nothing when the server has
no contents either. -/
theorem request_get_of_none (srv : Answers) {e : EidContent} (hc : c eid = some e)
    (hst : e.state = .none) (now : UInt32) :
    c.request srv (.get eid, now) eid =
      match srv.get eid with
      | none => some e
      | some buf => some { buf := buf, attr := attrAt now buf, state := .consistent } := by
  cases hsrv : srv.get eid <;> simp [request, get, getStart, getFill, hc, hst, hsrv]

/-- Nothing but a `get` or a `put` of the extent touches an entry that is there. -/
theorem request_of_other {e : EidContent} (hc : c eid = some e) (hst : e.state ≠ .remove)
    {r : Request × UInt32} (hget : r.1 ≠ .get eid) (hput : ∀ buf, r.1 ≠ .put eid buf) :
    c.request srv r eid = some e := by
  by_cases hne : eid = r.1.eid
  · obtain ⟨r, now⟩ := r
    cases r with
    | getattr i =>
        obtain rfl : eid = i := hne
        rw [request_getattr_of_entry hc hst, hc]
    | get i =>
        obtain rfl : eid = i := hne
        exact absurd rfl hget
    | put i buf =>
        obtain rfl : eid = i := hne
        exact absurd rfl (hput buf)
  · exact (request_of_ne hne).trans hc

/-! ## Between two `getattr` -/

/-- With contents in the entry nothing but a `put` changes the two times. -/
theorem times_of_contents (srv : Answers) {rs : List (Request × UInt32)}
    (hput : ∀ r ∈ rs, ∀ buf, r.1 ≠ .put eid buf) :
    ∀ {c : Cache} {e : EidContent}, c eid = some e → e.state = .dirty ∨ e.state = .consistent →
      ∃ e', c.requests srv rs eid = some e' ∧ e'.state = e.state ∧
        e'.attr.mtime = e.attr.mtime ∧ e'.attr.ctime = e.attr.ctime := by
  induction rs with
  | nil => exact fun {c e} hc _ => ⟨e, hc, rfl, rfl, rfl⟩
  | cons r rs ih =>
      intro c e hc hst
      have hrest : ∀ r' ∈ rs, ∀ buf, r'.1 ≠ .put eid buf :=
        fun r' hr' => hput r' (List.mem_cons_of_mem _ hr')
      by_cases hget : r.1 = .get eid
      · -- a `get` from the cache: only the access time is new
        obtain ⟨r, now⟩ := r
        obtain rfl : r = .get eid := hget
        exact ih hrest (e := e.touch now) (request_get_of_contents hc hst now) hst
      · have hremove : e.state ≠ .remove := by rcases hst with h | h <;> simp [h]
        exact ih hrest (request_of_other hc hremove hget (hput r List.mem_cons_self)) hst

/-- Without contents in the entry the first `get` sets both times, when the server has the
contents. -/
theorem times_of_none (srv : Answers) {rs : List (Request × UInt32)}
    (hput : ∀ r ∈ rs, ∀ buf, r.1 ≠ .put eid buf) :
    ∀ {c : Cache} {e : EidContent}, c eid = some e → e.state = .none →
      ∃ e', c.requests srv rs eid = some e' ∧ e'.state ≠ .remove ∧
        ((srv.get eid = none ∨ getTimes eid rs = []) → e' = e) ∧
        ((srv.get eid).isSome → ∀ now, (getTimes eid rs).head? = some now →
          e'.attr.mtime = now ∧ e'.attr.ctime = now) := by
  induction rs with
  | nil =>
      intro c e hc hst
      exact ⟨e, hc, by simp [hst], fun _ => rfl, fun _ now h => nomatch h⟩
  | cons r rs ih =>
      intro c e hc hst
      have hrest : ∀ r' ∈ rs, ∀ buf, r'.1 ≠ .put eid buf :=
        fun r' hr' => hput r' (List.mem_cons_of_mem _ hr')
      by_cases hget : r.1 = .get eid
      · obtain ⟨r, now⟩ := r
        obtain rfl : r = .get eid := hget
        have htimes : getTimes eid ((.get eid, now) :: rs) = now :: getTimes eid rs := by
          simp [getTimes]
        have hstep := request_get_of_none srv hc hst now
        cases hsrv : srv.get eid with
        | none =>
            -- the `get` failed and the entry is as it was
            rw [hsrv] at hstep
            rcases ih hrest hstep hst with ⟨e', he', hremove, hsame, -⟩
            exact ⟨e', he', hremove, fun _ => hsame (.inl hsrv), fun h => nomatch h⟩
        | some buf =>
            -- now there are contents, and no later `get` changes the times again
            rw [hsrv] at hstep
            rcases times_of_contents srv hrest hstep (.inr rfl) with
              ⟨e', he', hst', hm, hct⟩
            refine ⟨e', he', by simp [hst'], ?_, fun _ now' hnow' => ?_⟩
            · rintro (h | h)
              · exact nomatch h
              · rw [htimes] at h
                exact nomatch h
            · rw [htimes] at hnow'
              obtain rfl : now = now' := Option.some.inj hnow'
              exact ⟨hm, hct⟩
      · have htimes : getTimes eid (r :: rs) = getTimes eid rs := by simp [getTimes, hget]
        rw [htimes]
        exact ih hrest
          (request_of_other hc (by simp [hst]) hget (hput r List.mem_cons_self)) hst

/-! ## Sizes -/

/-- The attributes of the entry are the server's, or those made up for its contents. -/
def Known (srv : Answers) (eid : ExtentId) (e : EidContent) : Prop :=
  match e.state with
  | .none => srv.getattr eid = some e.attr
  | .dirty => e.attr.size = UInt32.ofNat e.buf.length
  | .consistent => e.attr.size = UInt32.ofNat e.buf.length
  | .remove => True

def Sound (srv : Answers) (c : Cache) : Prop :=
  ∀ eid e, c eid = some e → Known srv eid e

theorem sound_empty (srv : Answers) : Sound srv fun _ => none :=
  fun _ _ h => nomatch h

theorem Sound.set (h : Sound srv c) {e : EidContent} (he : Known srv eid e) :
    Sound srv (c.set eid e) := by
  intro i e' hi
  by_cases hne : i = eid
  · subst hne
    obtain rfl : e = e' := by simpa using hi
    exact he
  · exact h i e' (by simpa [hne] using hi)

/-- The access time is not among what is known. -/
theorem Known.touch {e : EidContent} (h : Known srv eid e)
    (hst : e.state = .dirty ∨ e.state = .consistent) (now : UInt32) :
    Known srv eid (e.touch now) := by
  rcases hst with hst | hst <;> simpa [Known, EidContent.touch, hst] using h

theorem Sound.getattr (h : Sound srv c) (eid : ExtentId) : Sound srv (c.getattr srv eid).1 := by
  unfold Cache.getattr
  split
  · split
    · exact h
    · rename_i a hsrv
      exact h.set hsrv
  · exact h
  · exact h

theorem Sound.request (h : Sound srv c) (r : Request × UInt32) : Sound srv (c.request srv r) := by
  obtain ⟨r, now⟩ := r
  cases r with
  | getattr eid => exact h.getattr eid
  | get eid =>
      simp only [Cache.request, Cache.get]
      cases hc : c eid with
      | none =>
          simp only [getStart, hc]
          split
          · exact h
          · exact h.set rfl
      | some e =>
          have he := h eid e hc
          cases hst : e.state with
          | none =>
              simp only [getStart, hc, hst]
              split
              · exact h
              · exact h.set rfl
          | remove =>
              simp only [getStart, hc, hst]
              exact h
          | dirty =>
              simp only [getStart, hc, hst]
              exact h.set (he.touch (.inl hst) now)
          | consistent =>
              simp only [getStart, hc, hst]
              exact h.set (he.touch (.inr hst) now)
  | put eid buf =>
      simp only [Cache.request, Cache.put]
      split
      · exact h
      · exact h.set rfl

theorem Sound.requests (rs : List (Request × UInt32)) :
    ∀ {c : Cache}, Sound srv c → Sound srv (c.requests srv rs) := by
  induction rs with
  | nil => exact fun h => h
  | cons r rs ih => exact fun h => ih (h.request r)

/-- The server's own answers agree, and contents in the cache have a size that fits into
32 bits. -/
def SizeFits (srv : Answers) (c : Cache) (eid : ExtentId) : Prop :=
  ∀ e, c eid = some e →
    if e.state = .none then
      ∀ a buf, srv.getattr eid = some a → srv.get eid = some buf → a.size.toNat = buf.length
    else
      e.buf.length < 4294967296

theorem toNat_ofNat_length_iff (buf : Bytes) :
    (UInt32.ofNat buf.length).toNat = buf.length ↔ buf.length < 4294967296 := by
  rw [UInt32.toNat_ofNat']
  omega

theorem size_iff {e : EidContent} (hc : c eid = some e) (hknown : Known srv eid e) {now : UInt32}
    {buf : Bytes} (hget : (c.get srv eid now).2 = some buf) :
    e.attr.size.toNat = buf.length ↔ SizeFits srv c eid := by
  have hfits : SizeFits srv c eid ↔
      if e.state = .none then
        ∀ a buf, srv.getattr eid = some a → srv.get eid = some buf → a.size.toNat = buf.length
      else
        e.buf.length < 4294967296 :=
    ⟨fun h => h e hc, fun h e' he' => by rwa [← Option.some.inj (hc.symm.trans he')]⟩
  rw [hfits]
  unfold Known at hknown
  cases hst : e.state with
  | none =>
      rw [hst] at hknown
      have hsrv : srv.get eid = some buf := by
        simp only [get, getStart, hc, hst] at hget
        split at hget
        · cases hget
        · rename_i hsrv
          exact hsrv.trans hget
      rw [if_pos rfl]
      refine ⟨fun hsize a buf' ha hbuf' => ?_, fun h => h e.attr buf hknown hsrv⟩
      rw [← Option.some.inj (hknown.symm.trans ha), hsize,
        Option.some.inj (hsrv.symm.trans hbuf')]
  | remove => simp [get, getStart, hc, hst] at hget
  | dirty =>
      rw [hst] at hknown
      obtain rfl : e.buf = buf := by simpa [get, getStart, hc, hst] using hget
      rw [hknown, if_neg (by simp), toNat_ofNat_length_iff]
  | consistent =>
      rw [hst] at hknown
      obtain rfl : e.buf = buf := by simpa [get, getStart, hc, hst] using hget
      rw [hknown, if_neg (by simp), toNat_ofNat_length_iff]

/-! ## Two `getattr` -/

/-- A `get` that has to fill the entry does so at the time which the attributes have already. -/
def FilledInTime (srv : Answers) (c : Cache) (eid : ExtentId) (a : Attr)
    (rs : List (Request × UInt32)) : Prop :=
  (c eid).map EidContent.state = some .none → (srv.get eid).isSome →
    ∀ now, (getTimes eid rs).head? = some now → now = a.mtime ∧ now = a.ctime

theorem times_iff {rs : List (Request × UInt32)} (hput : ∀ r ∈ rs, ∀ buf, r.1 ≠ .put eid buf)
    {e : EidContent} (hc : c eid = some e) (hremove : e.state ≠ .remove) {c' : Cache} {a' : Attr}
    (h' : (c.requests srv rs).getattr srv eid = (c', some a')) :
    a'.mtime = e.attr.mtime ∧ a'.ctime = e.attr.ctime ↔ FilledInTime srv c eid e.attr rs := by
  -- the second `getattr` is answered from the entry
  have hlast : ∀ e', c.requests srv rs eid = some e' → e'.state ≠ .remove → a' = e'.attr := by
    intro e' he' hst'
    rw [getattr_of_entry he' hst'] at h'
    exact (Option.some.inj (Prod.mk.inj h').2).symm
  unfold FilledInTime
  rw [hc]
  by_cases hst : e.state = .none
  · rcases times_of_none srv hput hc hst with ⟨e', he', hst', hsame, hset⟩
    rw [hlast e' he' hst']
    constructor
    · intro htimes _ hsrv now hnow
      rw [← htimes.1, ← htimes.2]
      exact ⟨(hset hsrv now hnow).1.symm, (hset hsrv now hnow).2.symm⟩
    · intro h
      have hnone : (some e).map EidContent.state = some .none := by rw [Option.map_some, hst]
      cases hsrv : srv.get eid with
      | none => simp [hsame (.inl hsrv)]
      | some buf =>
          have hsome : (srv.get eid).isSome := by rw [hsrv]; rfl
          cases htimes : getTimes eid rs with
          | nil => simp [hsame (.inr htimes)]
          | cons now rest =>
              have hhead : (getTimes eid rs).head? = some now := by rw [htimes]; rfl
              rw [(hset hsome now hhead).1, (hset hsome now hhead).2]
              exact h hnone hsome now hhead
  · have hcontents : e.state = .dirty ∨ e.state = .consistent := by
      cases h : e.state <;> simp_all
    rcases times_of_contents srv hput hc hcontents with ⟨e', he', hst', hm, hct⟩
    rw [hlast e' he' (by rw [hst']; exact hremove)]
    refine ⟨fun _ hnone => absurd (Option.some.inj hnone) hst, fun _ => ⟨hm, hct⟩⟩

end Cache

/-- Two `getattr` of an extent, any calls before them and any but a `put` of this extent between
them.  They report the same modification and change time exactly when no `get` between them fills
an entry that the first one left without contents, unless at just that time; and the size is that
of the contents exactly when it fits. -/
theorem attributes_stay_iff {srv : Answers} {c₀ : Cache} (hsound : c₀.Sound srv)
    (pre mid : List (Request × UInt32)) (eid : ExtentId)
    (hput : ∀ r ∈ mid, ∀ buf, r.1 ≠ .put eid buf) {c c' : Cache} {a a' : Attr}
    (h : (c₀.requests srv pre).getattr srv eid = (c, some a))
    (h' : (c.requests srv mid).getattr srv eid = (c', some a')) :
    (a'.mtime = a.mtime ∧ a'.ctime = a.ctime ↔ Cache.FilledInTime srv c eid a mid) ∧
      (∀ now buf, (c.get srv eid now).2 = some buf →
        (a.size.toNat = buf.length ↔ Cache.SizeFits srv c eid)) := by
  rcases Cache.entry_of_getattr h with ⟨e, hc, rfl, hremove⟩
  have hknown : Cache.Known srv eid e := by
    have hsound' := (hsound.requests pre).getattr eid
    rw [h] at hsound'
    exact hsound' eid e hc
  exact ⟨Cache.times_iff hput hc hremove h', fun now buf => Cache.size_iff hc hknown⟩

/-- A server with one extent of two bytes, last changed at the time 5. -/
def oldExtent : Answers where
  get eid := if eid = 1 then some [7, 8] else none
  getattr eid := if eid = 1 then some ⟨5, 5, 5, 2⟩ else none

/-- The cache after the extent was read at the time 10 and asked about. -/
def readOnce : Cache :=
  ((Cache.requests (fun _ => none) oldExtent [(.get 1, 10)]).getattr oldExtent 1).1

/-- Another `get` at the time 20 is visible in the access time only. -/
theorem attributes_stay_readOnce :
    ((readOnce.requests oldExtent [(.get 1, 20)]).getattr oldExtent 1).2 =
        some ⟨20, 10, 10, 2⟩ ∧
      Cache.FilledInTime oldExtent readOnce 1 ⟨10, 10, 10, 2⟩ [(.get 1, 20)] ∧
      Cache.SizeFits oldExtent readOnce 1 := by
  have hsecond : ((readOnce.requests oldExtent [(.get 1, 20)]).getattr oldExtent 1).2 =
      some ⟨20, 10, 10, 2⟩ := by decide +kernel
  have hiff := attributes_stay_iff (a := ⟨10, 10, 10, 2⟩) (Cache.sound_empty oldExtent)
    [(.get 1, 10)] [(.get 1, 20)] 1 (by simp) (Prod.ext rfl (by decide +kernel))
    (Prod.ext rfl hsecond)
  exact ⟨hsecond, hiff.1.1 ⟨rfl, rfl⟩, (hiff.2 20 [7, 8] (by decide +kernel)).1 (by decide)⟩

/-- `getattr` reports the modification time 5, and 10 after the extent has been read. -/
theorem read_modifies :
    ((Cache.getattr (fun _ => none) oldExtent 1).2 = some ⟨5, 5, 5, 2⟩) ∧
      (((Cache.getattr (fun _ => none) oldExtent 1).1.requests oldExtent
        [(.get 1, 10)]).getattr oldExtent 1).2 = some ⟨10, 10, 10, 2⟩ := by
  decide +kernel

end Extent
end Yfs
