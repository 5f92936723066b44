import Yfs.Extent.Cache

/-!
# Transparent — `extent_client_cache` against `extent_client`

One client that holds the locks makes a sequence of calls, once through `extent_client`, where
every call is an RPC, and once through the cache, which is flushed at the end.  The server is the
assumed map; its RPCs do not fail.

The cache cannot be told apart from the plain client as long as no extent is removed that does
not exist and none is put again after its removal, and only then (`cached_transparent`): it answers
a removal without asking the server, and it refuses a `put` on an entry that still waits for its
removal to be flushed.
-/

namespace Yfs
namespace Extent

abbrev Contents := ExtentId → Option Bytes

/-- A call of the client; `a` stands for the attributes the server keeps for the extent. -/
inductive Call
  | get (eid : ExtentId)
  | getattr (eid : ExtentId) (a : Attr)
  | put (eid : ExtentId) (buf : Bytes)
  | remove (eid : ExtentId)
  deriving DecidableEq, Repr

def Call.eid : Call → ExtentId
  | get eid => eid
  | getattr eid _ => eid
  | put eid _ => eid
  | remove eid => eid

/-- The status of a call, with the bytes of a `get` that returned `OK`. -/
structure Answer where
  status : Status
  buf : Option Bytes
  deriving DecidableEq, Repr

def Answer.of (status : Status) : Answer where
  status := status
  buf := none

/-! ## The two clients -/

namespace Contents

/-- The status of a call that needs the extent to be there. -/
def found (m : Contents) (eid : ExtentId) : Status :=
  if (m eid).isSome then .ok else .noent

/-- `extent_client::get`, `getattr`, `put` and `remove`: each is one RPC to the server. -/
def call (m : Contents) : Call → Contents × Answer
  | .get eid => (m, { status := m.found eid, buf := m eid })
  | .getattr eid _ => (m, .of (m.found eid))
  | .put eid buf => (Function.update m eid (some buf), .of .ok)
  | .remove eid => (Function.update m eid none, .of (m.found eid))

def run (m : Contents) : List Call → Contents × List Answer
  | [] => (m, [])
  | c :: cs => ((m.call c).1.run cs |>.1, (m.call c).2 :: ((m.call c).1.run cs).2)

end Contents

/-- The caching client and the server. -/
structure Client where
  cache : Cache
  server : Contents

namespace Client

/-- The constructor of the cache leaves it empty. -/
def start (m : Contents) : Client where
  cache _ := none
  server := m

/-- `extent_client_cache::get`, `getattr`, `put` and `remove`. -/
def call (s : Client) (now : UInt32) : Call → Client × Answer
  | .get eid =>
      match s.cache.getStart eid now with
      | .call =>
          match s.server eid with
          | none => (s, .of .noent)
          | some buf =>
              ({ s with cache := s.cache.getFill eid buf now }, { status := .ok, buf := some buf })
      -- the entry waits for its removal to be flushed
      | .noent => (s, .of .noent)
      | .hit k buf => ({ s with cache := k }, { status := .ok, buf := some buf })
  | .getattr eid a =>
      match s.cache.getattrStart eid with
      | .call =>
          match s.server eid with
          | none => (s, .of .noent)
          | some _ => ({ s with cache := s.cache.getattrFill eid a }, .of .ok)
      | .noent => (s, .of .noent)
      | .hit _ => (s, .of .ok)
  | .put eid buf =>
      ({ s with cache := (s.cache.put eid buf now).1 }, .of (s.cache.put eid buf now).2)
  | .remove eid => ({ s with cache := (s.cache.remove eid).1 }, .of (s.cache.remove eid).2)

def run (s : Client) : List (Call × UInt32) → Client × List Answer
  | [] => (s, [])
  | c :: cs => ((s.call c.2 c.1).1.run cs |>.1, (s.call c.2 c.1).2 :: ((s.call c.2 c.1).1.run cs).2)

/-- `extent_client_cache::flush`. -/
def flush (s : Client) (eid : ExtentId) : Client × Status :=
  match s.cache.flushStart eid with
  | .noent => (s, .noent)
  | .put buf =>
      ({ cache := s.cache.erase eid, server := Function.update s.server eid (some buf) }, .ok)
  | .remove =>
      ({ cache := s.cache.erase eid, server := Function.update s.server eid none },
        s.server.found eid)
  | .drop => ({ s with cache := s.cache.erase eid }, .ok)

def flushAll (s : Client) (ids : List ExtentId) : Client :=
  ids.foldl (fun s eid => (s.flush eid).1) s

end Client

/-! ## When the two agree -/

/-- `removed` are the extents removed so far. -/
def Allowed (m : Contents) (removed : List ExtentId) : Call → Prop
  | .get _ => True
  | .getattr _ _ => True
  | .put eid _ => eid ∉ removed
  | .remove eid => (m eid).isSome ∨ eid ∈ removed

instance (m : Contents) (removed : List ExtentId) (c : Call) : Decidable (Allowed m removed c) := by
  cases c <;> unfold Allowed <;> infer_instance

def Call.removed (removed : List ExtentId) : Call → List ExtentId
  | .remove eid => eid :: removed
  | _ => removed

/-- Every removal is of an extent that exists or was removed before, and no extent is put again
after its removal. -/
def Disciplined (m : Contents) (removed : List ExtentId) : List Call → Prop
  | [] => True
  | c :: cs => Allowed m removed c ∧ Disciplined (m.call c).1 (c.removed removed) cs

instance decidableDisciplined (cs : List Call) :
    ∀ (m : Contents) (removed : List ExtentId), Decidable (Disciplined m removed cs) := by
  induction cs with
  | nil => exact fun _ _ => inferInstanceAs (Decidable True)
  | cons c cs ih =>
      exact fun m removed =>
        have := ih (m.call c).1 (c.removed removed)
        inferInstanceAs (Decidable (_ ∧ _))

namespace Client

/-- The contents that the cache and the server stand for together. -/
def contents (s : Client) : Contents := fun eid =>
  match s.cache eid with
  | none => s.server eid
  | some e =>
      match e.state with
      | .dirty => some e.buf
      | .remove => none
      | .none => s.server eid
      | .consistent => s.server eid

/-- An entry that describes the contents `b` of its extent when the server has `srv`. -/
def Describes (srv b : Option Bytes) (e : EidContent) : Prop :=
  match e.state with
  | .dirty => b = some e.buf
  | .remove => b = none
  | .none => b = srv ∧ srv.isSome
  | .consistent => b = srv ∧ b = some e.buf

/-- Every entry describes the contents, and the entries that wait for their removal are those of
`removed`. -/
structure Valid (s : Client) (removed : List ExtentId) : Prop where
  entries : ∀ eid e, s.cache eid = some e → Describes (s.server eid) (s.contents eid) e
  removed : ∀ eid, eid ∈ removed ↔ (s.cache eid).map EidContent.state = some .remove

variable {s : Client} {removed : List ExtentId} {eid : ExtentId}

theorem valid_start (m : Contents) : Valid (start m) [] where
  entries _ _ h := nomatch h
  removed eid := by simp [start]

theorem contents_of_absent (h : s.cache eid = none) : s.contents eid = s.server eid := by
  simp [contents, h]

/-- Writing an entry that describes the contents `b` makes `b` the contents of its extent. -/
theorem contents_set {e : EidContent} {b : Option Bytes} (he : Describes (s.server eid) b e) :
    ({ s with cache := s.cache.set eid e } : Client).contents =
      Function.update s.contents eid b := by
  funext i
  by_cases hi : i = eid
  · subst hi
    rw [Function.update_self]
    cases hst : e.state <;> simp_all [contents, Describes]
  · rw [Function.update_of_ne hi]
    simp [contents, hi]

theorem valid_set (hs : Valid s removed) {e : EidContent} {b : Option Bytes}
    (he : Describes (s.server eid) b e) {removed' : List ExtentId}
    (hself : eid ∈ removed' ↔ e.state = .remove)
    (hother : ∀ i, i ≠ eid → (i ∈ removed' ↔ i ∈ removed)) :
    Valid { s with cache := s.cache.set eid e } removed' where
  entries i e' h := by
    rw [contents_set he]
    by_cases hi : i = eid
    · subst hi
      obtain rfl : e = e' := by simpa using h
      simpa using he
    · rw [Function.update_of_ne hi]
      exact hs.entries i e' (by simpa [hi] using h)
  removed i := by
    by_cases hi : i = eid
    · subst hi
      simpa using hself
    · simpa [hi] using (hother i hi).trans (hs.removed i)

/-- The call does to the contents what the plain client's call does to the server, and answers
the same. -/
structure Agrees (s : Client) (removed : List ExtentId) (now : UInt32) (c : Call) : Prop where
  contents : (s.call now c).1.contents = (s.contents.call c).1
  answer : (s.call now c).2 = (s.contents.call c).2
  valid : Valid (s.call now c).1 (c.removed removed)

/-- An entry written for an extent whose contents stay as they are. -/
theorem agrees_of_set {now : UInt32} {c : Call} {e : EidContent} (hs : Valid s removed)
    (hcall : (s.call now c).1 = { s with cache := s.cache.set eid e })
    (hsame : (s.contents.call c).1 = s.contents) (hremoved : c.removed removed = removed)
    (he : Describes (s.server eid) (s.contents eid) e) (hst : e.state ≠ .remove)
    (hnot : eid ∉ removed) (hanswer : (s.call now c).2 = (s.contents.call c).2) :
    Agrees s removed now c where
  contents := by rw [hcall, contents_set he, Function.update_eq_self, hsame]
  answer := hanswer
  valid := by
    rw [hcall, hremoved]
    exact valid_set hs he (by simp [hst, hnot]) fun _ _ => Iff.rfl

theorem agrees_of_stay {now : UInt32} {c : Call} {ans : Answer} (hs : Valid s removed)
    (hcall : s.call now c = (s, ans)) (hsame : (s.contents.call c).1 = s.contents)
    (hremoved : c.removed removed = removed) (hanswer : ans = (s.contents.call c).2) :
    Agrees s removed now c where
  contents := by rw [hcall, hsame]
  answer := by rw [hcall, hanswer]
  valid := by
    rw [hcall, hremoved]
    exact hs

theorem notMem_of_absent (hs : Valid s removed) (h : s.cache eid = none) : eid ∉ removed := by
  simp [hs.removed, h]

theorem notMem_of_state (hs : Valid s removed) {e : EidContent} (h : s.cache eid = some e)
    (hst : e.state ≠ .remove) : eid ∉ removed := by
  simp [hs.removed, h, hst]

/-! ## The four calls -/

/-- A `get` that has to ask the server: the entry is absent or has only attributes. -/
theorem agrees_fetch (hs : Valid s removed) {now : UInt32}
    (hstart : s.cache.getStart eid now = .call) (hcont : s.contents eid = s.server eid)
    (hnot : eid ∉ removed) : Agrees s removed now (.get eid) := by
  cases hsrv : s.server eid with
  | none =>
      have hcall : s.call now (.get eid) = (s, .of .noent) := by simp [call, hstart, hsrv]
      refine agrees_of_stay hs hcall rfl rfl ?_
      simp [Contents.call, Contents.found, hcont, hsrv, Answer.of]
  | some buf =>
      have hcall : s.call now (.get eid) =
          ({ s with cache := s.cache.getFill eid buf now },
            { status := .ok, buf := some buf }) := by
        simp [call, hstart, hsrv]
      refine agrees_of_set hs (by rw [hcall]; rfl) rfl rfl ?_ (by simp) hnot ?_
      · simp [Describes, hcont, hsrv]
      · simp [hcall, Contents.call, Contents.found, hcont, hsrv]

/-- A `get` that is answered from the entry. -/
theorem agrees_hit (hs : Valid s removed) {now : UInt32} {e : EidContent}
    (hc : s.cache eid = some e)
    (hstart : s.cache.getStart eid now = .hit (s.cache.set eid (e.touch now)) e.buf)
    (hbuf : s.contents eid = some e.buf) (hst : e.state ≠ .remove) :
    Agrees s removed now (.get eid) := by
  have hcall : s.call now (.get eid) =
      ({ s with cache := s.cache.set eid (e.touch now) },
        { status := .ok, buf := some e.buf }) := by
    simp [call, hstart]
  -- only the access time changes
  have he : Describes (s.server eid) (s.contents eid) (e.touch now) := hs.entries eid e hc
  refine agrees_of_set hs (by rw [hcall]) rfl rfl he hst (notMem_of_state hs hc hst) ?_
  simp [hcall, Contents.call, Contents.found, hbuf]

theorem agrees_get (hs : Valid s removed) (eid : ExtentId) (now : UInt32) :
    Agrees s removed now (.get eid) := by
  cases hc : s.cache eid with
  | none =>
      exact agrees_fetch hs (by simp [Cache.getStart, hc]) (contents_of_absent hc)
        (notMem_of_absent hs hc)
  | some e =>
      have he := hs.entries eid e hc
      unfold Describes at he
      cases hst : e.state with
      | none =>
          rw [hst] at he
          exact agrees_fetch hs (by simp [Cache.getStart, hc, hst]) he.1
            (notMem_of_state hs hc (by simp [hst]))
      | remove =>
          rw [hst] at he
          have hcall : s.call now (.get eid) = (s, .of .noent) := by
            simp [call, Cache.getStart, hc, hst]
          refine agrees_of_stay hs hcall rfl rfl ?_
          simp [Contents.call, Contents.found, he, Answer.of]
      | dirty =>
          rw [hst] at he
          exact agrees_hit hs hc (by simp [Cache.getStart, hc, hst]) he (by simp [hst])
      | consistent =>
          rw [hst] at he
          exact agrees_hit hs hc (by simp [Cache.getStart, hc, hst]) he.2 (by simp [hst])

theorem isSome_contents_of_state (hs : Valid s removed) {e : EidContent}
    (hc : s.cache eid = some e) (hst : e.state ≠ .remove) : (s.contents eid).isSome := by
  have he := hs.entries eid e hc
  unfold Describes at he
  cases h : e.state with
  | none =>
      rw [h] at he
      rw [he.1]
      exact he.2
  | remove => exact absurd h hst
  | dirty =>
      rw [h] at he
      rw [he]
      rfl
  | consistent =>
      rw [h] at he
      rw [he.2]
      rfl

theorem contents_of_removed (hs : Valid s removed) (h : eid ∈ removed) :
    s.contents eid = none := by
  rcases Option.map_eq_some_iff.1 ((hs.removed eid).1 h) with ⟨e, hc, hst⟩
  have he := hs.entries eid e hc
  rwa [Describes, hst] at he

theorem agrees_getattr (hs : Valid s removed) (eid : ExtentId) (a : Attr) (now : UInt32) :
    Agrees s removed now (.getattr eid a) := by
  cases hc : s.cache eid with
  | none =>
      have hcont := contents_of_absent hc
      cases hsrv : s.server eid with
      | none =>
          have hcall : s.call now (.getattr eid a) = (s, .of .noent) := by
            simp [call, Cache.getattrStart, hc, hsrv]
          refine agrees_of_stay hs hcall rfl rfl ?_
          simp [Contents.call, Contents.found, hcont, hsrv]
      | some buf =>
          have hcall : s.call now (.getattr eid a) =
              ({ s with cache := s.cache.getattrFill eid a }, .of .ok) := by
            simp [call, Cache.getattrStart, hc, hsrv]
          refine agrees_of_set hs (by rw [hcall]; rfl) rfl rfl ?_ (by simp)
            (notMem_of_absent hs hc) ?_
          · simp [Describes, hcont, hsrv]
          · simp [hcall, Contents.call, Contents.found, hcont, hsrv]
  | some e =>
      by_cases hst : e.state = .remove
      · have hcall : s.call now (.getattr eid a) = (s, .of .noent) := by
          simp [call, Cache.getattrStart, hc, hst]
        have hcont : s.contents eid = none :=
          contents_of_removed hs ((hs.removed eid).2 (by simp [hc, hst]))
        refine agrees_of_stay hs hcall rfl rfl ?_
        simp [Contents.call, Contents.found, hcont]
      · have hcall : s.call now (.getattr eid a) = (s, .of .ok) := by
          simp [call, Cache.getattrStart, hc, hst]
        refine agrees_of_stay hs hcall rfl rfl ?_
        simp [Contents.call, Contents.found, isSome_contents_of_state hs hc hst]

/-- `put` is refused exactly on an entry that waits for its removal. -/
theorem put_eq (hs : Valid s removed) (eid : ExtentId) (buf : Bytes) (now : UInt32) :
    s.cache.put eid buf now =
      if eid ∈ removed then
        (s.cache, .noent)
      else
        (s.cache.set eid { buf := buf, attr := Cache.attrAt now buf, state := .dirty }, .ok) := by
  simp only [Cache.put, hs.removed]

/-- So is `remove`, which does not ask whether there is anything to remove. -/
theorem remove_eq (hs : Valid s removed) (eid : ExtentId) :
    s.cache.remove eid =
      if eid ∈ removed then
        (s.cache, .noent)
      else
        (s.cache.set eid { s.cache.entry eid with state := .remove }, .ok) := by
  have hstate : (s.cache.entry eid).state = .remove ↔ eid ∈ removed := by
    rw [hs.removed]
    cases hc : s.cache eid <;> simp [Cache.entry, hc, EidContent.zero]
  simp only [Cache.remove, hstate]

theorem agrees_put (hs : Valid s removed) {buf : Bytes} (hnot : eid ∉ removed) (now : UInt32) :
    Agrees s removed now (.put eid buf) := by
  have hput := put_eq hs eid buf now
  rw [if_neg hnot] at hput
  have he : Describes (s.server eid) (some buf)
      { buf := buf, attr := Cache.attrAt now buf, state := .dirty } := rfl
  refine ⟨?_, ?_, ?_⟩
  · simp only [call, hput, Contents.call]
    exact contents_set he
  · simp only [call, hput, Contents.call]
  · simp only [call, hput]
    exact valid_set hs he (by simp [Call.removed, hnot]) fun _ _ => Iff.rfl

theorem agrees_remove (hs : Valid s removed) (h : (s.contents eid).isSome ∨ eid ∈ removed)
    (now : UInt32) : Agrees s removed now (.remove eid) := by
  have hremove := remove_eq hs eid
  by_cases hmem : eid ∈ removed
  · -- a second removal: the extent is gone in both
    have hgone := contents_of_removed hs hmem
    rw [if_pos hmem] at hremove
    refine ⟨?_, ?_, ?_⟩
    · simp only [call, hremove, Contents.call]
      rw [← hgone, Function.update_eq_self]
    · simp [call, hremove, Contents.call, Contents.found, hgone]
    · simp only [call, hremove]
      refine ⟨hs.entries, fun i => ?_⟩
      rw [← hs.removed i, Call.removed, List.mem_cons]
      exact ⟨fun hi => hi.elim (fun hi => hi ▸ hmem) id, Or.inr⟩
  · -- a first removal, of an extent that is there
    have hthere : (s.contents eid).isSome := h.resolve_right hmem
    rw [if_neg hmem] at hremove
    have he : Describes (s.server eid) none { s.cache.entry eid with state := .remove } := rfl
    refine ⟨?_, ?_, ?_⟩
    · simp only [call, hremove, Contents.call]
      exact contents_set he
    · simp [call, hremove, Contents.call, Contents.found, hthere]
    · simp only [call, hremove]
      exact valid_set hs he (by simp [Call.removed]) fun i hi => by simp [Call.removed, hi]

theorem agrees_of_allowed (hs : Valid s removed) {c : Call} (hc : Allowed s.contents removed c)
    (now : UInt32) : Agrees s removed now c := by
  cases c with
  | get eid => exact agrees_get hs eid now
  | getattr eid a => exact agrees_getattr hs eid a now
  | put eid buf => exact agrees_put hs hc now
  | remove eid => exact agrees_remove hs hc now

/-- A call on which the two clients answer the same was allowed. -/
theorem allowed_of_answer (hs : Valid s removed) {c : Call} {now : UInt32}
    (h : (s.call now c).2 = (s.contents.call c).2) : Allowed s.contents removed c := by
  cases c with
  | get eid | getattr eid a => trivial
  | put eid buf =>
      intro hmem
      have hput := put_eq hs eid buf now
      rw [if_pos hmem] at hput
      simp [call, hput, Contents.call, Answer.of] at h
  | remove eid =>
      by_cases hmem : eid ∈ removed
      · exact Or.inr hmem
      · refine Or.inl ?_
        have hremove := remove_eq hs eid
        rw [if_neg hmem] at hremove
        simp only [call, hremove, Contents.call, Contents.found] at h
        by_contra hnone
        simp [hnone, Answer.of] at h

/-! ## Whole runs -/

theorem run_agrees {calls : List (Call × UInt32)} :
    ∀ {s : Client} {removed : List ExtentId}, Valid s removed →
      Disciplined s.contents removed (calls.map Prod.fst) →
        (s.run calls).2 = (s.contents.run (calls.map Prod.fst)).2 ∧
          (s.run calls).1.contents = (s.contents.run (calls.map Prod.fst)).1 ∧
          ∃ removed', Valid (s.run calls).1 removed' := by
  induction calls with
  | nil => exact fun hs _ => ⟨rfl, rfl, _, hs⟩
  | cons c cs ih =>
      intro s removed hs hd
      have hagree := agrees_of_allowed hs hd.1 c.2
      -- the rest starts from a state that stands for what the plain client left
      rcases ih hagree.valid (hagree.contents ▸ hd.2) with ⟨hanswers, hcontents, hvalid⟩
      rw [hagree.contents] at hanswers hcontents
      refine ⟨?_, hcontents, hvalid⟩
      simp only [run, List.map_cons, Contents.run, hagree.answer, hanswers]

theorem disciplined_of_answers {calls : List (Call × UInt32)} :
    ∀ {s : Client} {removed : List ExtentId}, Valid s removed →
      (s.run calls).2 = (s.contents.run (calls.map Prod.fst)).2 →
        Disciplined s.contents removed (calls.map Prod.fst) := by
  induction calls with
  | nil => exact fun _ _ => trivial
  | cons c cs ih =>
      intro s removed hs h
      rcases List.cons.inj h with ⟨hhead, htail⟩
      have hallowed := allowed_of_answer hs hhead
      have hagree := agrees_of_allowed hs hallowed c.2
      refine ⟨hallowed, ?_⟩
      rw [← hagree.contents] at htail ⊢
      exact ih hagree.valid htail

/-! ## Flushing -/

theorem flush_cache (s : Client) (eid : ExtentId) :
    (s.flush eid).1.cache = s.cache.erase eid := by
  cases hc : s.cache eid with
  | none =>
      have herase : s.cache.erase eid = s.cache := by
        rw [Cache.erase, ← hc, Function.update_eq_self]
      simp [flush, Cache.flushStart, hc, herase]
  | some e => cases hst : e.state <;> simp [flush, Cache.flushStart, hc, hst]

/-- Flushing an entry does not change the contents: what it describes is on the server now. -/
theorem flush_contents (s : Client) (eid : ExtentId) : (s.flush eid).1.contents = s.contents := by
  cases hc : s.cache eid with
  | none => simp [flush, Cache.flushStart, hc]
  | some e =>
      funext i
      by_cases hi : i = eid
      · subst hi
        have habsent : (s.flush i).1.cache i = none := by simp [flush_cache]
        rw [contents_of_absent habsent]
        cases hst : e.state <;> simp [flush, Cache.flushStart, contents, hc, hst]
      · cases hst : e.state <;> simp [flush, Cache.flushStart, hc, hst, contents, hi]

theorem flushAll_contents (ids : List ExtentId) :
    ∀ s : Client, (s.flushAll ids).contents = s.contents := by
  induction ids with
  | nil => exact fun _ => rfl
  | cons eid ids ih =>
      intro s
      have hrest := ih (s.flush eid).1
      rw [flush_contents] at hrest
      exact hrest

theorem flushAll_cache (ids : List ExtentId) (i : ExtentId) :
    ∀ s : Client, (s.flushAll ids).cache i = if i ∈ ids then none else s.cache i := by
  induction ids with
  | nil => exact fun s => rfl
  | cons eid ids ih =>
      intro s
      have hrest := ih (s.flush eid).1
      rw [flush_cache] at hrest
      rw [flushAll, List.foldl_cons]
      refine hrest.trans ?_
      by_cases hi : i = eid
      · subst hi
        simp
      · simp [hi]

/-- A call leaves the entries of the other extents alone. -/
theorem call_cache_of_ne (s : Client) (now : UInt32) {c : Call} {i : ExtentId} (hi : i ≠ c.eid) :
    (s.call now c).1.cache i = s.cache i := by
  cases c with
  | get eid =>
      have hi' : i ≠ eid := hi
      cases hc : s.cache eid with
      | none =>
          cases hsrv : s.server eid <;>
            simp [call, Cache.getStart, Cache.getFill, hc, hsrv, hi']
      | some e =>
          cases hst : e.state <;> cases hsrv : s.server eid <;>
            simp [call, Cache.getStart, Cache.getFill, hc, hst, hsrv, hi']
  | getattr eid a =>
      have hi' : i ≠ eid := hi
      cases hc : s.cache eid with
      | none =>
          cases hsrv : s.server eid <;>
            simp [call, Cache.getattrStart, Cache.getattrFill, hc, hsrv, hi']
      | some e => by_cases hst : e.state = .remove <;> simp [call, Cache.getattrStart, hc, hst]
  | put eid buf =>
      have hi' : i ≠ eid := hi
      simp only [call, Cache.put]
      split
      · rfl
      · exact Cache.set_of_ne _ _ hi'
  | remove eid =>
      have hi' : i ≠ eid := hi
      simp only [call, Cache.remove]
      split
      · rfl
      · exact Cache.set_of_ne _ _ hi'

theorem run_cache_of_notMem {i : ExtentId} {calls : List (Call × UInt32)} :
    ∀ {s : Client}, (∀ c ∈ calls, c.1.eid ≠ i) → (s.run calls).1.cache i = s.cache i := by
  induction calls with
  | nil => exact fun _ => rfl
  | cons c cs ih =>
      intro s h
      rw [← call_cache_of_ne s c.2 (h c (by simp)).symm]
      exact ih fun c' hc' => h c' (by simp [hc'])

/-- After flushing every extent that the calls were about, the server has the contents. -/
theorem flushAll_server {m : Contents} {calls : List (Call × UInt32)} {ids : List ExtentId}
    (hids : ∀ c ∈ calls, c.1.eid ∈ ids) :
    (((start m).run calls).1.flushAll ids).server = ((start m).run calls).1.contents := by
  rw [← flushAll_contents ids]
  funext i
  -- no entry is left, neither of a flushed extent nor of one that was never called for
  refine (contents_of_absent ?_).symm
  rw [flushAll_cache]
  split
  next => rfl
  next hi =>
    exact run_cache_of_notMem fun c hc heq => hi (heq ▸ hids c hc)

end Client

/-- A sequence of calls gets the same answers from the cache and from the plain client, and once
every extent is flushed the server has the same contents, exactly if it is disciplined. -/
theorem cached_transparent (m : Contents) (calls : List (Call × UInt32)) (ids : List ExtentId)
    (hids : ∀ c ∈ calls, c.1.eid ∈ ids) :
    (((Client.start m).run calls).2 = (m.run (calls.map Prod.fst)).2 ∧
      (((Client.start m).run calls).1.flushAll ids).server = (m.run (calls.map Prod.fst)).1) ↔
      Disciplined m [] (calls.map Prod.fst) := by
  refine ⟨fun h => Client.disciplined_of_answers (Client.valid_start m) h.1, fun hd => ?_⟩
  rcases Client.run_agrees (Client.valid_start m) hd with ⟨hanswers, hcontents, -⟩
  exact ⟨hanswers, (Client.flushAll_server hids).trans hcontents⟩

/-- A server with one extent. -/
def oneExtent : Contents := fun eid => if eid = 1 then some [7] else none

/-- An extent is read and removed twice, another is written, looked at and written again. -/
def fairCalls : List (Call × UInt32) :=
  [(.get 1, 10), (.put 2 [1], 11), (.getattr 2 EidContent.zero.attr, 12), (.remove 1, 13),
    (.remove 1, 14), (.get 1, 15), (.put 2 [9], 16), (.get 2, 17)]

theorem cached_transparent_fairCalls :
    Disciplined oneExtent [] (fairCalls.map Prod.fst) ∧
      ((Client.start oneExtent).run fairCalls).2 = (oneExtent.run (fairCalls.map Prod.fst)).2 ∧
      (((Client.start oneExtent).run fairCalls).1.flushAll [1, 2]).server =
        (oneExtent.run (fairCalls.map Prod.fst)).1 := by
  have hd : Disciplined oneExtent [] (fairCalls.map Prod.fst) := by decide +kernel
  exact ⟨hd, (cached_transparent oneExtent fairCalls [1, 2] (by decide +kernel)).2 hd⟩

/-- The cache answers `OK` to the removal of an extent that never was, and after a removal it
refuses a `put`, which is lost. -/
theorem cache_visible :
    ((Client.start oneExtent).run [(.remove 2, 10)]).2 = [.of .ok] ∧
      (oneExtent.run [.remove 2]).2 = [.of .noent] ∧
      ((Client.start oneExtent).run [(.remove 1, 10), (.put 1 [8], 11)]).2 =
        [.of .ok, .of .noent] ∧
      (oneExtent.run [.remove 1, .put 1 [8]]).2 = [.of .ok, .of .ok] ∧
      (((Client.start oneExtent).run [(.remove 1, 10), (.put 1 [8], 11)]).1.flushAll
        [1]).server 1 = none ∧
      (oneExtent.run [.remove 1, .put 1 [8]]).1 1 = some [8] := by
  decide +kernel

end Extent
end Yfs
