import Yfs.Rpc.Format

/-!
# Stub — the arguments and the result of a replicated call

`rsm_client::call` marshals its arguments into a string, which `rsm::execute` gives to the stub
that `rsm::reg` made for the method.  The stub unmarshals the arguments and calls the method; its
result travels back as a string inside a string, next to the status.

Both ends exist once per number of arguments.  A `Signature` is such a number with the types of the
arguments, `Signature.put` is what `call` sends and `Signature.get` what the stub reads.  They fit
together for one to four arguments.  The stub for five does not read the last one, so its `VERIFY`
fails in every call (`call_five`).  A request or reply that does not fit into a PDU is not read by
the other end, and `invoke` tries again for ever.  `replicated_call_transparent` says that nothing
else stands between a call and its result.

`none` is a `VERIFY` that fails, a loop that does not end, or undefined behaviour of a `marshall`.
-/

namespace Yfs
namespace Rsm
namespace Stub

open Rpc.Wire

variable {σ α ρ : Type} {e : α → Bytes} {f : ρ → Bytes}

/-- What freshly allocated buffers hold, under the names of the variables that own them. -/
structure Memory where
  m : ℕ → UInt8
  args : ℕ → UInt8
  rep : ℕ → UInt8
  rep1 : ℕ → UInt8
  u : ℕ → UInt8
  u1 : ℕ → UInt8

/-- `handler::fn`, with the object on which the method is called. -/
abbrev Fn (σ : Type) := Buffer → Unmarshall → Marshall → σ → Option (σ × Int32 × Marshall)

/-- `procs`. -/
abbrev Procs (σ : Type) := Int32 → Option (Fn σ)

/-- The arguments of a method, each of a type that can be marshalled. -/
inductive Signature : (α : Type) → (α → Bytes) → Type 1 where
  | one {A₁ : Type} {e₁ : A₁ → Bytes} (c₁ : Codec A₁) (h₁ : Format A₁ c₁ e₁) : Signature A₁ e₁
  | two {A₁ A₂ : Type} {e₁ : A₁ → Bytes} {e₂ : A₂ → Bytes} (c₁ : Codec A₁) (c₂ : Codec A₂)
      (h₁ : Format A₁ c₁ e₁) (h₂ : Format A₂ c₂ e₂) : Signature (A₁ × A₂) (pairBytes e₁ e₂)
  | three {A₁ A₂ A₃ : Type} {e₁ : A₁ → Bytes} {e₂ : A₂ → Bytes} {e₃ : A₃ → Bytes} (c₁ : Codec A₁)
      (c₂ : Codec A₂) (c₃ : Codec A₃) (h₁ : Format A₁ c₁ e₁) (h₂ : Format A₂ c₂ e₂)
      (h₃ : Format A₃ c₃ e₃) : Signature (A₁ × A₂ × A₃) (pairBytes e₁ (pairBytes e₂ e₃))
  | four {A₁ A₂ A₃ A₄ : Type} {e₁ : A₁ → Bytes} {e₂ : A₂ → Bytes} {e₃ : A₃ → Bytes}
      {e₄ : A₄ → Bytes} (c₁ : Codec A₁) (c₂ : Codec A₂) (c₃ : Codec A₃) (c₄ : Codec A₄)
      (h₁ : Format A₁ c₁ e₁) (h₂ : Format A₂ c₂ e₂) (h₃ : Format A₃ c₃ e₃)
      (h₄ : Format A₄ c₄ e₄) :
      Signature (A₁ × A₂ × A₃ × A₄) (pairBytes e₁ (pairBytes e₂ (pairBytes e₃ e₄)))
  | five {A₁ A₂ A₃ A₄ A₅ : Type} {e₁ : A₁ → Bytes} {e₂ : A₂ → Bytes} {e₃ : A₃ → Bytes}
      {e₄ : A₄ → Bytes} {e₅ : A₅ → Bytes} (c₁ : Codec A₁) (c₂ : Codec A₂) (c₃ : Codec A₃)
      (c₄ : Codec A₄) (c₅ : Codec A₅) (h₁ : Format A₁ c₁ e₁) (h₂ : Format A₂ c₂ e₂)
      (h₃ : Format A₃ c₃ e₃) (h₄ : Format A₄ c₄ e₄) (h₅ : Format A₅ c₅ e₅) :
      Signature (A₁ × A₂ × A₃ × A₄ × A₅)
        (pairBytes e₁ (pairBytes e₂ (pairBytes e₃ (pairBytes e₄ e₅))))

namespace Signature

def arity : Signature α e → ℕ
  | one .. => 1
  | two .. => 2
  | three .. => 3
  | four .. => 4
  | five .. => 5

/-- The arguments as `rsm_client::call` marshals them. -/
def put : Signature α e → Marshall → α → Option Marshall
  | one c₁ _, m, a₁ => c₁.put m a₁
  | two c₁ c₂ _ _, m, (a₁, a₂) => do
      let m ← c₁.put m a₁
      c₂.put m a₂
  | three c₁ c₂ c₃ _ _ _, m, (a₁, a₂, a₃) => do
      let m ← c₁.put m a₁
      let m ← c₂.put m a₂
      c₃.put m a₃
  | four c₁ c₂ c₃ c₄ _ _ _ _, m, (a₁, a₂, a₃, a₄) => do
      let m ← c₁.put m a₁
      let m ← c₂.put m a₂
      let m ← c₃.put m a₃
      c₄.put m a₄
  | five c₁ c₂ c₃ c₄ c₅ _ _ _ _ _, m, (a₁, a₂, a₃, a₄, a₅) => do
      let m ← c₁.put m a₁
      let m ← c₂.put m a₂
      let m ← c₃.put m a₃
      let m ← c₄.put m a₄
      c₅.put m a₅

/-- The arguments as the stub of `rsm::reg` unmarshals them.  The stub for five has no
`args >> a5`. -/
def get : Signature α e → Buffer → Unmarshall → Unmarshall × α
  | one c₁ _, b, u => c₁.get b u c₁.dflt
  | two c₁ c₂ _ _, b, u =>
      let r₁ := c₁.get b u c₁.dflt
      let r₂ := c₂.get b r₁.1 c₂.dflt
      (r₂.1, r₁.2, r₂.2)
  | three c₁ c₂ c₃ _ _ _, b, u =>
      let r₁ := c₁.get b u c₁.dflt
      let r₂ := c₂.get b r₁.1 c₂.dflt
      let r₃ := c₃.get b r₂.1 c₃.dflt
      (r₃.1, r₁.2, r₂.2, r₃.2)
  | four c₁ c₂ c₃ c₄ _ _ _ _, b, u =>
      let r₁ := c₁.get b u c₁.dflt
      let r₂ := c₂.get b r₁.1 c₂.dflt
      let r₃ := c₃.get b r₂.1 c₃.dflt
      let r₄ := c₄.get b r₃.1 c₄.dflt
      (r₄.1, r₁.2, r₂.2, r₃.2, r₄.2)
  | five c₁ c₂ c₃ c₄ c₅ _ _ _ _ _, b, u =>
      let r₁ := c₁.get b u c₁.dflt
      let r₂ := c₂.get b r₁.1 c₂.dflt
      let r₃ := c₃.get b r₂.1 c₃.dflt
      let r₄ := c₄.get b r₃.1 c₄.dflt
      -- `a5` keeps the value it was constructed with
      (r₄.1, r₁.2, r₂.2, r₃.2, r₄.2, c₅.dflt)

/-- `h1::fn`.  The method gets a fresh `r` to write to. -/
def fn (sig : Signature α e) (d : Codec ρ) (meth : σ → α → ρ → σ × Int32 × ρ) : Fn σ :=
  fun args u ret sob =>
    let a := sig.get args u
    if a.1.okdone args then
      let b := meth sob a.2 d.dflt
      (d.put ret b.2.2).map fun ret => (b.1, b.2.1, ret)
    else
      none

end Signature

def reg (procs : Procs σ) (proc : Int32) (sig : Signature α e) (d : Codec ρ)
    (meth : σ → α → ρ → σ × Int32 × ρ) : Procs σ :=
  Function.update procs proc (some (sig.fn d meth))

/-- The reply is the status and, as a string, what the stub has marshalled. -/
def execute (mem : Memory) (procs : Procs σ) (procno : Int32) (req : Bytes) (sob : σ) :
    Option (σ × Bytes) := do
  let h ← procs procno
  let (sob, ret, rep) ←
    h (Unmarshall.contentBuffer mem.args req) Unmarshall.startContent (Marshall.new mem.rep) sob
  let rep1 ← Codec.int.put (Marshall.new mem.rep1) ret
  let rep1 ← Codec.string.put rep1 rep.str
  pure (sob, rep1.str)

/-- The size of the largest PDU that carries a request: the client sends the number of the method
and the request, and a primary that has slaves sends both on with a viewstamp. -/
def requestPdu (slaves : Bool) (req : Bytes) : ℕ :=
  headerSz + (if slaves then 16 else 8) + req.length

/-- The size of the PDU that carries a reply. -/
def replyPdu (rep : Bytes) : ℕ := headerSz + 4 + rep.length

/-- `rsm_client::invoke`, which only returns with the reply of a primary that has executed the
request.  `connection::readpdu` gives up a connection on which a larger PDU than `MAX_PDU` is
announced, every time it is sent again. -/
def invoke (slaves : Bool) (execute : Int32 → Bytes → Option (σ × Bytes)) (procno : Int32)
    (req : Bytes) : Option (σ × Bytes) :=
  if requestPdu slaves req ≤ maxPdu then
    (execute procno req).filter fun r => decide (replyPdu r.2 ≤ maxPdu)
  else
    none

def callM (mem : Memory) (d : Codec ρ) (invoke : Bytes → Option (σ × Bytes)) (req : Marshall)
    (r : ρ) : Option (σ × Int32 × ρ) := do
  let (sob, rep) ← invoke req.str
  let u := Unmarshall.contentBuffer mem.u rep
  let intret := Codec.int.get u Unmarshall.startContent 0
  if intret.2 < 0 then
    -- an error of the method: the result is left as it was
    pure (sob, intret.2, r)
  else
    let res := Codec.string.get u intret.1 []
    if res.1.okdone u then
      let u1 := Unmarshall.contentBuffer mem.u1 res.2
      let r := d.get u1 Unmarshall.startContent r
      if r.1.okdone u1 then pure (sob, intret.2, r.2) else none
    else
      none

def call (mem : Memory) (invoke : Int32 → Bytes → Option (σ × Bytes)) (proc : UInt32)
    (sig : Signature α e) (d : Codec ρ) (a : α) (r : ρ) : Option (σ × Int32 × ρ) := do
  let m ← sig.put (Marshall.new mem.m) a
  callM mem d (invoke proc.toInt32) m r

/-- A call of a method that is registered with `rsm::reg`, on the object `sob`. -/
def replicatedCall (mem : Memory) (slaves : Bool) (procs : Procs σ) (proc : UInt32)
    (sig : Signature α e) (d : Codec ρ) (meth : σ → α → ρ → σ × Int32 × ρ) (sob : σ) (a : α)
    (r : ρ) : Option (σ × Int32 × ρ) :=
  call mem (invoke slaves fun procno req =>
    execute mem (reg procs proc.toInt32 sig d meth) procno req sob) proc sig d a r

/-! ## One to four arguments -/

/-- `call` writes the arguments one after the other, and up to four the stub reads them so. -/
theorem Signature.coded (sig : Signature α e) :
    ∃ c : Codec α, Coded c e ∧ (∀ m a, sig.put m a = c.put m a) ∧
      (sig.arity ≤ 4 → ∀ b u, sig.get b u = c.get b u c.dflt) := by
  cases sig with
  | one c₁ h₁ => exact ⟨c₁, h₁.coded, fun _ _ => rfl, fun _ _ _ => rfl⟩
  | two c₁ c₂ h₁ h₂ =>
      exact ⟨c₁.pair c₂, h₁.coded.pair h₂.coded, fun _ _ => rfl, fun _ _ _ => rfl⟩
  | three c₁ c₂ c₃ h₁ h₂ h₃ =>
      exact ⟨c₁.pair (c₂.pair c₃), h₁.coded.pair (h₂.coded.pair h₃.coded), fun _ _ => rfl,
        fun _ _ _ => rfl⟩
  | four c₁ c₂ c₃ c₄ h₁ h₂ h₃ h₄ =>
      exact ⟨c₁.pair (c₂.pair (c₃.pair c₄)),
        h₁.coded.pair (h₂.coded.pair (h₃.coded.pair h₄.coded)), fun _ _ => rfl, fun _ _ _ => rfl⟩
  | five c₁ c₂ c₃ c₄ c₅ h₁ h₂ h₃ h₄ h₅ =>
      refine ⟨c₁.pair (c₂.pair (c₃.pair (c₄.pair c₅))),
        h₁.coded.pair (h₂.coded.pair (h₃.coded.pair (h₄.coded.pair h₅.coded))), fun _ _ => rfl,
        fun harity => ?_⟩
      exact absurd harity (by decide : ¬ 5 ≤ 4)

/-- `call` hands the bytes of the arguments to `invoke`. -/
theorem call_eq (sig : Signature α e) (mem : Memory) (invoke : Int32 → Bytes → Option (σ × Bytes))
    (proc : UInt32) (d : Codec ρ) {a : α} (r : ρ) (hargs : headerSz + (e a).length < sizeLimit) :
    ∃ m : Marshall, m.str = e a ∧
      call mem invoke proc sig d a r = callM mem d (invoke proc.toInt32) m r := by
  rcases sig.coded with ⟨c, hc, hput, -⟩
  rcases hc.put_new mem.m a hargs with ⟨m, hm, hstr⟩
  refine ⟨m, hstr, ?_⟩
  rw [call, hput, hm]
  rfl

/-- The stub calls the method with the arguments that were marshalled. -/
theorem Signature.fn_eq (sig : Signature α e) (harity : sig.arity ≤ 4) {d : Codec ρ}
    (hd : Coded d f) (meth : σ → α → ρ → σ × Int32 × ρ) (junk junk' : ℕ → UInt8) (a : α) (sob : σ)
    (hargs : headerSz + (e a).length < sizeLimit)
    (hres : headerSz + (f (meth sob a d.dflt).2.2).length < sizeLimit) :
    ∃ rep : Marshall, rep.str = f (meth sob a d.dflt).2.2 ∧
      sig.fn d meth (Unmarshall.contentBuffer junk (e a)) Unmarshall.startContent
        (Marshall.new junk') sob =
          some ((meth sob a d.dflt).1, (meth sob a d.dflt).2.1, rep) := by
  rcases sig.coded with ⟨c, hc, -, hget⟩
  have hgot := hc.get_content junk a c.dflt [] (by simpa using hargs)
  rw [List.append_nil, ← hget harity] at hgot
  have hdone := (hgot.okdone (b := Unmarshall.contentBuffer junk (e a))).2 (sz_content junk _).symm
  rcases hd.put_new junk' (meth sob a d.dflt).2.2 hres with ⟨rep, hrep, hstr⟩
  refine ⟨rep, hstr, ?_⟩
  rw [Signature.fn, if_pos hdone, hgot.value]
  simp only [hrep, Option.map_some]

/-- The bytes of a reply. -/
def replyBytes (ret : Int32) (rep : Bytes) : Bytes :=
  wordBytes ret.toUInt32 ++ stringBytes rep

theorem length_replyBytes (ret : Int32) (rep : Bytes) :
    (replyBytes ret rep).length = 8 + rep.length := by
  simp only [replyBytes, List.length_append, length_wordBytes, length_stringBytes]
  omega

theorem execute_eq {mem : Memory} {procs : Procs σ} {procno : Int32} {h : Fn σ} {req : Bytes}
    {sob sob' : σ} {ret : Int32} {rep : Marshall} (hproc : procs procno = some h)
    (hfn : h (Unmarshall.contentBuffer mem.args req) Unmarshall.startContent
      (Marshall.new mem.rep) sob = some (sob', ret, rep))
    (hrep : headerSz + 8 + rep.str.length < sizeLimit) :
    execute mem procs procno req sob = some (sob', replyBytes ret rep.str) := by
  have hlen := length_replyBytes ret rep.str
  rcases (coded_int.pair coded_string).put_new mem.rep1 (ret, rep.str)
    (show headerSz + (replyBytes ret rep.str).length < sizeLimit by omega) with ⟨m, hm, hstr⟩
  have hstr' : m.str = replyBytes ret rep.str := hstr
  simp only [Codec.pair, Option.bind_eq_bind] at hm
  rcases Option.bind_eq_some_iff.1 hm with ⟨m₁, hm₁, hm₂⟩
  simp only [execute, hproc, hfn, hm₁, hm₂, hstr', Option.bind_eq_bind, Option.bind_some,
    Option.pure_def]

/-- The reply is taken apart again. -/
theorem callM_eq {mem : Memory} {d : Codec ρ} (hd : Coded d f)
    {invoke : Bytes → Option (σ × Bytes)} {req : Marshall} {sob : σ} {ret : Int32} {v : ρ} (r : ρ)
    (hinvoke : invoke req.str = some (sob, replyBytes ret (f v)))
    (hres : headerSz + 8 + (f v).length < sizeLimit) :
    callM mem d invoke req r = some (sob, ret, if ret < 0 then r else v) := by
  have hlen := length_replyBytes ret (f v)
  have hsz := sz_content mem.u (replyBytes ret (f v))
  have hintret : Got Unmarshall.startContent 4 ret
      (Codec.int.get (Unmarshall.contentBuffer mem.u (replyBytes ret (f v)))
        Unmarshall.startContent 0) :=
    coded_int.get_content mem.u ret 0 (stringBytes (f v))
      (show headerSz + (replyBytes ret (f v)).length < sizeLimit by omega)
  simp only [callM, hinvoke, Option.bind_eq_bind, Option.bind_some, hintret.value]
  -- the result is only read when the status is not negative
  by_cases hneg : ret < 0
  · rw [if_pos hneg, if_pos hneg]
    rfl
  · rw [if_neg hneg, if_neg hneg]
    have hind : (Codec.int.get (Unmarshall.contentBuffer mem.u (replyBytes ret (f v)))
        Unmarshall.startContent 0).1.ind = headerSz + 4 := hintret.ind
    have hstring := length_stringBytes (f v)
    have hres' := (coded_string.reads (f v) []).full
      (Unmarshall.contentBuffer mem.u (replyBytes ret (f v))) _ hintret.ok
      (hind ▸ (holds_content mem.u (replyBytes ret (f v))).right) (by omega) (by omega)
    have hr := hd.get_content mem.u1 v r [] (by simp only [List.append_nil]; omega)
    rw [List.append_nil] at hr
    rw [if_pos (hres'.okdone.2 (by omega)), hres'.value,
      if_pos (hr.okdone.2 (sz_content mem.u1 (f v)).symm), hr.value]
    rfl

/-! ## Five arguments -/

/-- The bytes of the last argument are left over. -/
theorem Signature.fn_five (sig : Signature α e) (harity : sig.arity = 5) (d : Codec ρ)
    (meth : σ → α → ρ → σ × Int32 × ρ) (junk : ℕ → UInt8) (ret : Marshall) (a : α) (sob : σ)
    (hargs : headerSz + (e a).length < sizeLimit) :
    sig.fn d meth (Unmarshall.contentBuffer junk (e a)) Unmarshall.startContent ret sob = none := by
  cases sig with
  | five c₁ c₂ c₃ c₄ c₅ h₁ h₂ h₃ h₄ h₅ =>
      rename_i e₁ e₂ e₃ e₄ e₅
      rcases a with ⟨a₁, a₂, a₃, a₄, a₅⟩
      have hfour := h₁.coded.pair (h₂.coded.pair (h₃.coded.pair h₄.coded))
      have hbytes :
          pairBytes e₁ (pairBytes e₂ (pairBytes e₃ (pairBytes e₄ e₅))) (a₁, a₂, a₃, a₄, a₅) =
            pairBytes e₁ (pairBytes e₂ (pairBytes e₃ e₄)) (a₁, a₂, a₃, a₄) ++ e₅ a₅ := by
        simp [pairBytes]
      rw [hbytes] at hargs ⊢
      have hgot := hfour.get_content junk (a₁, a₂, a₃, a₄) (c₁.dflt, c₂.dflt, c₃.dflt, c₄.dflt)
        (e₅ a₅) hargs
      have hsz := sz_content junk
        (pairBytes e₁ (pairBytes e₂ (pairBytes e₃ e₄)) (a₁, a₂, a₃, a₄) ++ e₅ a₅)
      -- the fifth argument has at least one byte, so `okdone()` finds the index before the end
      have hpos := h₅.length_pos a₅
      refine if_neg fun hdone => ?_
      have hend := hgot.okdone.1 hdone
      rw [hsz, List.length_append] at hend
      have hstart : Unmarshall.startContent.ind = headerSz := rfl
      omega
  | _ => cases harity

/-- No call with five arguments comes back. -/
theorem call_five (sig : Signature α e) (harity : sig.arity = 5) (d : Codec ρ)
    (meth : σ → α → ρ → σ × Int32 × ρ) (mem : Memory) (slaves : Bool) (procs : Procs σ)
    (proc : UInt32) (sob : σ) (a : α) (r : ρ) (hargs : headerSz + (e a).length < sizeLimit) :
    replicatedCall mem slaves procs proc sig d meth sob a r = none := by
  rcases call_eq sig mem (invoke slaves fun procno req =>
    execute mem (reg procs proc.toInt32 sig d meth) procno req sob) proc d r hargs
    with ⟨m, hstr, hcall⟩
  have hfn := sig.fn_five harity d meth mem.args (Marshall.new mem.rep) a sob hargs
  have hproc : reg procs proc.toInt32 sig d meth proc.toInt32 = some (sig.fn d meth) :=
    Function.update_self _ _ _
  rw [replicatedCall, hcall]
  simp only [callM, invoke, execute, hproc, hstr, hfn, Option.bind_eq_bind, Option.bind_some,
    Option.bind_none, Option.filter_none, ite_self]

/-! ## The whole call -/

theorem Signature.arity_le (sig : Signature α e) : sig.arity ≤ 4 ∨ sig.arity = 5 := by
  cases sig with
  | five => exact Or.inr rfl
  | _ => exact Or.inl (by simp [arity])

/-- A call of one to four arguments, up to the bounds on the PDUs. -/
theorem replicatedCall_eq (sig : Signature α e) (harity : sig.arity ≤ 4) {d : Codec ρ}
    (hd : Coded d f) (meth : σ → α → ρ → σ × Int32 × ρ) (mem : Memory) (slaves : Bool)
    (procs : Procs σ) (proc : UInt32) (sob : σ) (a : α) (r : ρ)
    (hargs : headerSz + (e a).length < sizeLimit)
    (hres : headerSz + 8 + (f (meth sob a d.dflt).2.2).length < sizeLimit) :
    replicatedCall mem slaves procs proc sig d meth sob a r =
      if requestPdu slaves (e a) ≤ maxPdu ∧
          replyPdu (replyBytes (meth sob a d.dflt).2.1 (f (meth sob a d.dflt).2.2)) ≤ maxPdu then
        some ((meth sob a d.dflt).1, (meth sob a d.dflt).2.1,
          if (meth sob a d.dflt).2.1 < 0 then r else (meth sob a d.dflt).2.2)
      else
        none := by
  rcases call_eq sig mem (invoke slaves fun procno req =>
    execute mem (reg procs proc.toInt32 sig d meth) procno req sob) proc d r hargs
    with ⟨m, hstr, hcall⟩
  rcases sig.fn_eq harity hd meth mem.args mem.rep a sob hargs (by omega) with ⟨rep, hrep, hfn⟩
  have hexec : execute mem (reg procs proc.toInt32 sig d meth) proc.toInt32 (e a) sob =
      some ((meth sob a d.dflt).1,
        replyBytes (meth sob a d.dflt).2.1 (f (meth sob a d.dflt).2.2)) := by
    rw [← hrep]
    exact execute_eq (Function.update_self _ _ _) hfn (by rw [hrep]; exact hres)
  rw [replicatedCall, hcall]
  split
  case isTrue h =>
    refine callM_eq hd r ?_ hres
    rw [invoke, hstr, if_pos h.1, hexec, Option.filter_some, if_pos (decide_eq_true h.2)]
  case isFalse h =>
    -- one of the two PDUs is too large, and `invoke` does not return
    have hnone : invoke slaves (fun procno req =>
        execute mem (reg procs proc.toInt32 sig d meth) procno req sob) proc.toInt32 m.str =
          none := by
      rw [invoke, hstr, hexec, Option.filter_some]
      by_cases hreq : requestPdu slaves (e a) ≤ maxPdu
      · rw [if_pos hreq, if_neg (by simpa using fun hrep => h ⟨hreq, hrep⟩)]
      · rw [if_neg hreq]
    simp only [callM, hnone, Option.bind_eq_bind, Option.bind_none]

/-- A replicated call is as good as a call of the method, made with the arguments that were given
to `call`, and its status comes back, with the result unless the status is negative: exactly if
there are at most four arguments and both PDUs are within `MAX_PDU`. -/
theorem replicated_call_transparent (sig : Signature α e) {d : Codec ρ} (hd : Format ρ d f)
    (meth : σ → α → ρ → σ × Int32 × ρ) (mem : Memory) (slaves : Bool) (procs : Procs σ)
    (proc : UInt32) (sob : σ) (a : α) (r : ρ) (hargs : headerSz + (e a).length < sizeLimit)
    (hres : headerSz + 8 + (f (meth sob a d.dflt).2.2).length < sizeLimit) :
    replicatedCall mem slaves procs proc sig d meth sob a r =
        some ((meth sob a d.dflt).1, (meth sob a d.dflt).2.1,
          if (meth sob a d.dflt).2.1 < 0 then r else (meth sob a d.dflt).2.2) ↔
      sig.arity ≤ 4 ∧ requestPdu slaves (e a) ≤ maxPdu ∧
        replyPdu (replyBytes (meth sob a d.dflt).2.1 (f (meth sob a d.dflt).2.2)) ≤ maxPdu := by
  rcases sig.arity_le with harity | harity
  · rw [replicatedCall_eq sig harity hd.coded meth mem slaves procs proc sob a r hargs hres]
    split
    case isTrue h => simp [harity, h]
    case isFalse h => simpa using fun _ hreq => Nat.lt_of_not_le fun hrep => h ⟨hreq, hrep⟩
  · rw [call_five sig harity d meth mem slaves procs proc sob a r hargs]
    simp [harity]

/-- Storage that happens to be zeroed. -/
def zeroed : Memory :=
  ⟨fun _ => 0, fun _ => 0, fun _ => 0, fun _ => 0, fun _ => 0, fun _ => 0⟩

/-- What the lock client calls `acquire` with: the lock, the client and the xid. -/
def acquireSignature : Signature (UInt64 × Bytes × UInt64)
    (pairBytes longBytes (pairBytes stringBytes longBytes)) :=
  .three .ulonglong .string .ulonglong .ulonglong .string .ulonglong

theorem replicated_call_transparent_acquire :
    replicatedCall zeroed true (fun _ => none) 1 acquireSignature .int
        (fun (_ : List UInt64) a _ => ([a.1, a.2.2], 0, 5)) [] (1, [0x61], 2) 0 =
      some ([1, 2], 0, 5) :=
  (replicated_call_transparent acquireSignature Format.int
    (fun (_ : List UInt64) a _ => ([a.1, a.2.2], 0, 5)) zeroed true (fun _ => none) 1 []
    (1, [0x61], 2) 0 (by decide) (by decide)).2 (by decide)

def fiveBytes : Signature (UInt8 × UInt8 × UInt8 × UInt8 × UInt8)
    (pairBytes (fun x => [x]) (pairBytes (fun x => [x])
      (pairBytes (fun x => [x]) (pairBytes (fun x => [x]) fun x => [x])))) :=
  .five .uchar .uchar .uchar .uchar .uchar .uchar .uchar .uchar .uchar .uchar

/-- The request for five bytes is marshalled, but the stub stops before the method is called. -/
theorem five_arguments_fail :
    (∃ m, fiveBytes.put (Marshall.new zeroed.m) (1, 2, 3, 4, 5) = some m ∧
      m.str = [1, 2, 3, 4, 5]) ∧
    replicatedCall zeroed true (fun _ => none) 1 fiveBytes .int
      (fun (_ : Unit) _ _ => ((), 0, 7)) () (1, 2, 3, 4, 5) 0 = none := by
  refine ⟨?_, call_five fiveBytes rfl .int _ zeroed true (fun _ => none) 1 () (1, 2, 3, 4, 5) 0
    (by decide)⟩
  rcases fiveBytes.coded with ⟨c, hc, hput, -⟩
  rw [hput]
  exact hc.put_new zeroed.m (1, 2, 3, 4, 5) (by decide)

end Stub
end Rsm
end Yfs
