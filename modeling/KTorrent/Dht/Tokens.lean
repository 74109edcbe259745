import KTorrent.Dht.Key
import KTorrent.Util.Endian
import KTorrent.Util.SHA1HashGen
import Mathlib.Data.Set.Function

/-!
# The tokens of the database

A node that asks for peers is given a token; with it, it may announce itself, once. A token is the hash
of the node's address and the time, and the database keeps the time of each.

* `Outstanding` — a token was generated for an address and no check of it has succeeded since.
* `checkToken_run` — in every run exactly the tokens that are outstanding are accepted, a check that
  fails changes nothing, no token is accepted from another address, and none twice.

`generate` is `SHA1HashGen::generate`; all that is used of it is that the texts hashed in the run have
different hashes.

Source: `kademlia/database.cpp`
-/

namespace KTorrent.Dht

open KTorrent.Util

/-- Source: `util/functions.cpp`, `WriteUint64`. Kind: D -/
def uint64Bytes (val : ℕ) : List UInt8 := uint32Bytes (val / 2 ^ 32) ++ uint32Bytes val

/-- What is hashed. Source: `Database::genToken`, `Database::checkToken`. Kind: D -/
def tdata (ip : UInt32) (port : UInt16) (ts : UInt64) : List UInt8 :=
  uint32Bytes ip.toNat ++ uint16Bytes port.toNat ++ uint64Bytes ts.toNat

/-- The tokens of `Database`, each with its time. Source: `kademlia/database.h`. Kind: D -/
structure Database where
  tokens : Key → Option UInt64

namespace Database

variable (generate : List UInt8 → Key)

/-- Source: `Database::Database`. Kind: D -/
def new : Database := ⟨fun _ => none⟩

/-- Source: `Database::genToken`. Kind: D -/
def genToken (now : UInt64) (ip : UInt32) (port : UInt16) (db : Database) : Database × Key :=
  let token := generate (tdata ip port now)
  -- keep track of the token
  (⟨Function.update db.tokens token (some now)⟩, token)

/-- Source: `Database::checkToken`. Kind: D -/
def checkToken (token : Key) (ip : UInt32) (port : UInt16) (db : Database) : Database × Bool :=
  match db.tokens token with
  | none => (db, false)
  | some ts =>
    -- compare the generated token to the one received
    if token ≠ generate (tdata ip port ts) then (db, false)
    -- expire the token
    else (⟨Function.update db.tokens token none⟩, true)

/-- Kind: D -/
inductive Op
  | genToken (now : UInt64) (ip : UInt32) (port : UInt16)
  | checkToken (token : Key) (ip : UInt32) (port : UInt16)

/-- Kind: D -/
def step (db : Database) : Op → Database
  | .genToken now ip port => (db.genToken generate now ip port).1
  | .checkToken token ip port => (db.checkToken generate token ip port).1

/-- Kind: D -/
def run (db : Database) (ops : List Op) : Database := ops.foldl (step generate) db

/-- The text that is hashed. Kind: D -/
def hashed (db : Database) : Op → List (List UInt8)
  | .genToken now ip port => [tdata ip port now]
  | .checkToken token ip port => (db.tokens token).toList.map (tdata ip port)

/-- The texts that are hashed in a run. Kind: D -/
def hashedIn : Database → List Op → List (List UInt8)
  | _, [] => []
  | db, op :: ops => db.hashed op ++ hashedIn (db.step generate op) ops

/-- A check of the token succeeds. Kind: D -/
def Consumes (db : Database) (token : Key) (op : Op) : Prop :=
  ∃ ip port, op = .checkToken token ip port ∧ (db.checkToken generate token ip port).2 = true

/-- **The token was generated for this address at this time, and no check of it has succeeded
since.** Kind: D -/
def OutstandingAt (ops : List Op) (token : Key) (ip : UInt32) (port : UInt16) (now : UInt64) : Prop :=
  generate (tdata ip port now) = token ∧
    ∃ front back, ops = front ++ .genToken now ip port :: back ∧
      ∀ mid op rest, back = mid ++ op :: rest →
        ¬ Consumes generate (run generate new (front ++ .genToken now ip port :: mid)) token op

/-- The token was generated for this address, and no check of it has succeeded since. Kind: D -/
def Outstanding (ops : List Op) (token : Key) (ip : UInt32) (port : UInt16) : Prop :=
  ∃ now, OutstandingAt generate ops token ip port now

variable {generate}

/-! ### One step -/

/-- A number of 32 bits is settled by its bytes. Source: `util/functions.cpp`, `WriteUint32`.
Kind: L -/
theorem uint32Bytes_inj {a b : ℕ} (ha : a < 2 ^ 32) (hb : b < 2 ^ 32)
    (h : uint32Bytes a = uint32Bytes b) : a = b := by
  have h1 := readUint32_append [] a []
  have h2 := readUint32_append [] b []
  rw [h, h2, u32_of_lt ha, u32_of_lt hb] at h1
  exact h1.symm

/-- Different addresses or times are different texts. Source: `Database::genToken`,
`Database::checkToken`. Kind: L -/
theorem tdata_injective {ip ip' : UInt32} {port port' : UInt16} {ts ts' : UInt64}
    (h : tdata ip port ts = tdata ip' port' ts') : ip = ip' ∧ port = port' ∧ ts = ts' := by
  unfold tdata uint64Bytes at h
  obtain ⟨hfront, hts⟩ := List.append_inj h rfl
  obtain ⟨hip, hport⟩ := List.append_inj hfront rfl
  obtain ⟨hhigh, hlow⟩ := List.append_inj hts rfl
  refine ⟨?_, ?_, ?_⟩
  · exact UInt32.toNat_inj.mp (uint32Bytes_inj ip.toNat_lt ip'.toNat_lt hip)
  · have h1 := readUint16_append [] port.toNat_lt []
    have h2 := readUint16_append [] port'.toNat_lt []
    rw [hport, h2] at h1
    exact UInt16.toNat_inj.mp h1.symm
  · have hlt := ts.toNat_lt
    have hlt' := ts'.toNat_lt
    have h1 : ts.toNat / 2 ^ 32 = ts'.toNat / 2 ^ 32 :=
      uint32Bytes_inj (by omega) (by omega) hhigh
    have h2 := readUint32_append [] ts.toNat []
    have h3 := readUint32_append [] ts'.toNat []
    rw [hlow, h3] at h2
    unfold u32 at h2
    apply UInt64.toNat_inj.mp
    omega

/-- What a check does. Source: `Database::checkToken`. Kind: L -/
theorem checkToken_true_iff (db : Database) (token : Key) (ip : UInt32) (port : UInt16) :
    (db.checkToken generate token ip port).2 = true ↔
      ∃ ts, db.tokens token = some ts ∧ token = generate (tdata ip port ts) := by
  unfold checkToken
  cases htoken : db.tokens token with
  | none => simp
  | some ts =>
    dsimp only
    by_cases h : token = generate (tdata ip port ts)
    · rw [if_neg (not_not.mpr h)]
      exact iff_of_true rfl ⟨ts, rfl, h⟩
    · rw [if_pos h]
      refine iff_of_false Bool.false_ne_true ?_
      rintro ⟨ts', hts, heq⟩
      rw [← Option.some.inj hts] at heq
      exact h heq

/-- A token that is refused changes nothing. Source: `Database::checkToken`. Kind: L -/
theorem checkToken_false {db : Database} {token : Key} {ip : UInt32} {port : UInt16}
    (h : (db.checkToken generate token ip port).2 = false) :
    (db.checkToken generate token ip port).1 = db := by
  unfold checkToken at h ⊢
  cases htoken : db.tokens token with
  | none => rfl
  | some ts =>
    rw [htoken] at h
    dsimp only at h ⊢
    split_ifs at h ⊢ with heq
    rfl

/-- A token that is accepted is gone. Source: `Database::checkToken`. Kind: L -/
theorem checkToken_true {db : Database} {token : Key} {ip : UInt32} {port : UInt16}
    (h : (db.checkToken generate token ip port).2 = true) :
    (db.checkToken generate token ip port).1 = ⟨Function.update db.tokens token none⟩ := by
  unfold checkToken at h ⊢
  cases htoken : db.tokens token with
  | none =>
    rw [htoken] at h
    cases h
  | some ts =>
    rw [htoken] at h
    dsimp only at h ⊢
    split_ifs at h ⊢ with heq
    rfl

/-- A token that is given is stored with its time. Source: `Database::genToken`. Kind: L -/
theorem tokens_genToken (db : Database) (now : UInt64) (ip : UInt32) (port : UInt16) :
    (db.step generate (.genToken now ip port)).tokens =
      Function.update db.tokens (generate (tdata ip port now)) (some now) := by
  rw [step, genToken]

/-- A generation puts in its token, a check that succeeds takes it out.
Source: `Database::genToken`. Kind: L -/
theorem tokens_step (db : Database) (op : Op) (token : Key) :
    (∃ now ip port, op = .genToken now ip port ∧ generate (tdata ip port now) = token ∧
      (db.step generate op).tokens token = some now) ∨
    (Consumes generate db token op ∧ (db.step generate op).tokens token = none) ∨
    ((∀ now ip port, op = .genToken now ip port → generate (tdata ip port now) ≠ token) ∧
      ¬ Consumes generate db token op ∧ (db.step generate op).tokens token = db.tokens token) := by
  cases op with
  | genToken now ip port =>
    by_cases h : generate (tdata ip port now) = token
    · left
      refine ⟨now, ip, port, rfl, h, ?_⟩
      rw [tokens_genToken, h, Function.update_self]
    · right
      right
      refine ⟨fun now' ip' port' heq => ?_, fun hc => ?_, ?_⟩
      · obtain ⟨rfl, rfl, rfl⟩ := Op.genToken.inj heq
        exact h
      · obtain ⟨ip', port', heq, -⟩ := hc
        exact Op.noConfusion heq
      · rw [tokens_genToken, Function.update_of_ne (Ne.symm h)]
  | checkToken token' ip port =>
    right
    have hgen : ∀ now ip' port', Op.checkToken token' ip port = .genToken now ip' port' →
        generate (tdata ip' port' now) ≠ token := fun _ _ _ heq => Op.noConfusion heq
    cases hcheck : (db.checkToken generate token' ip port).2 with
    | false =>
      right
      refine ⟨hgen, ?_, ?_⟩
      · rintro ⟨ip', port', heq, hsuccess⟩
        obtain ⟨rfl, rfl, rfl⟩ := Op.checkToken.inj heq
        rw [hcheck] at hsuccess
        cases hsuccess
      · show (db.checkToken generate token' ip port).1.tokens token = db.tokens token
        rw [checkToken_false hcheck]
    | true =>
      have hstep : (db.step generate (.checkToken token' ip port)).tokens =
          Function.update db.tokens token' none := by
        show (db.checkToken generate token' ip port).1.tokens = _
        rw [checkToken_true hcheck]
      by_cases heq : token = token'
      · subst heq
        left
        refine ⟨⟨ip, port, rfl, hcheck⟩, ?_⟩
        rw [hstep, Function.update_self]
      · right
        refine ⟨hgen, ?_, ?_⟩
        · rintro ⟨ip', port', h', -⟩
          exact heq (Op.checkToken.inj h').1.symm
        · rw [hstep, Function.update_of_ne heq]

/-! ### Runs -/

/-- One run after another. Source: none: infrastructure. Kind: L -/
theorem run_append (db : Database) (a b : List Op) :
    run generate db (a ++ b) = run generate (run generate db a) b := List.foldl_append

/-- The first operation of a run. Source: none: infrastructure. Kind: L -/
theorem run_cons (db : Database) (op : Op) (ops : List Op) :
    run generate db (op :: ops) = run generate (db.step generate op) ops := rfl

/-- The last operation of a run. Source: `kademlia/database.cpp`. Kind: L -/
theorem run_concat (db : Database) (ops : List Op) (op : Op) :
    run generate db (ops ++ [op]) = (run generate db ops).step generate op := run_append db ops [op]

/-- What is hashed in one run and then in another. Source: none: infrastructure. Kind: L -/
theorem hashedIn_append (db : Database) (a b : List Op) :
    hashedIn generate db (a ++ b) =
      hashedIn generate db a ++ hashedIn generate (run generate db a) b := by
  induction a generalizing db with
  | nil => rfl
  | cons op a ih =>
    rw [List.cons_append, hashedIn, hashedIn, ih, List.append_assoc]
    rfl

/-- The text of a generation is hashed. Source: `Database::genToken`, `Database::checkToken`.
Kind: L -/
theorem tdata_mem_hashedIn {ops : List Op} {now : UInt64} {ip : UInt32} {port : UInt16}
    (h : .genToken now ip port ∈ ops) (db : Database) :
    tdata ip port now ∈ hashedIn generate db ops := by
  induction ops generalizing db with
  | nil => cases h
  | cons op ops ih =>
    rw [hashedIn, List.mem_append]
    obtain rfl | h := List.mem_cons.mp h
    · exact .inl (List.mem_singleton_self _)
    · exact .inr (ih h _)

/-- What is outstanding stays so when it is not consumed. Source: `kademlia/database.cpp`.
Kind: L -/
theorem OutstandingAt.concat {ops : List Op} {token : Key} {ip : UInt32} {port : UInt16}
    {now : UInt64} (h : OutstandingAt generate ops token ip port now) {op : Op}
    (hop : ¬ Consumes generate (run generate new ops) token op) :
    OutstandingAt generate (ops ++ [op]) token ip port now := by
  obtain ⟨hgen, front, back, rfl, hback⟩ := h
  refine ⟨hgen, front, back ++ [op], ?_, ?_⟩
  · rw [List.append_assoc, List.cons_append]
  · intro mid op' rest heq
    obtain rfl | ⟨rest', last, rfl⟩ := List.eq_nil_or_concat rest
    · obtain ⟨rfl, hop'⟩ := List.append_inj' heq rfl
      rw [← (List.cons.inj hop').1]
      exact hop
    · have heq' : back ++ [op] = (mid ++ op' :: rest') ++ [last] := by
        rw [heq, List.append_assoc, List.cons_append, List.concat_eq_append]
      exact hback mid op' rest' (List.append_inj' heq' rfl).1

/-- **A token in the table is outstanding**, since the time in the table.
Source: `kademlia/database.cpp`. Kind: L -/
theorem outstanding_of_tokens {ops : List Op} {token : Key} {ts : UInt64}
    (h : (run generate new ops).tokens token = some ts) :
    ∃ ip port, OutstandingAt generate ops token ip port ts := by
  induction ops using List.reverseRecOn with
  | nil => cases h
  | append_singleton ops op ih =>
    rw [run_concat] at h
    obtain ⟨now, ip, port, rfl, hgen, htoken⟩ | ⟨-, hnone⟩ | ⟨-, hop, hsame⟩ :=
      @tokens_step generate (run generate new ops) op token
    · rw [htoken] at h
      obtain rfl := Option.some.inj h
      refine ⟨ip, port, hgen, ops, [], rfl, fun mid op' rest heq => ?_⟩
      exact absurd heq.symm (List.append_ne_nil_of_right_ne_nil mid (List.cons_ne_nil op' rest))
    · rw [hnone] at h
      cases h
    · rw [hsame] at h
      obtain ⟨ip, port, hout⟩ := ih h
      exact ⟨ip, port, hout.concat hop⟩

/-- A token stays in the table until it is consumed. Source: `kademlia/database.cpp`. Kind: L -/
theorem tokens_of_unconsumed {db : Database} {token : Key} (h : db.tokens token ≠ none)
    {ops : List Op} (hops : ∀ mid op rest, ops = mid ++ op :: rest →
      ¬ Consumes generate (run generate db mid) token op) :
    (run generate db ops).tokens token ≠ none := by
  induction ops generalizing db with
  | nil => exact h
  | cons op ops ih =>
    have hstep : (db.step generate op).tokens token ≠ none := by
      obtain ⟨now, ip, port, -, -, htoken⟩ | ⟨hcons, -⟩ | ⟨-, -, hsame⟩ :=
        @tokens_step generate db op token
      · rw [htoken]
        exact Option.some_ne_none now
      · exact absurd hcons (hops [] op ops rfl)
      · rwa [hsame]
    exact ih hstep fun mid op' rest heq => hops (op :: mid) op' rest (by rw [heq]; rfl)

/-- **A token that is outstanding is in the table.**. Source: `kademlia/database.cpp`. Kind: L -/
theorem OutstandingAt.tokens {ops : List Op} {token : Key} {ip : UInt32} {port : UInt16}
    {now : UInt64} (h : OutstandingAt generate ops token ip port now) :
    (run generate new ops).tokens token ≠ none := by
  obtain ⟨hgen, front, back, rfl, hback⟩ := h
  have hsplit : ∀ mid, run generate new (front ++ .genToken now ip port :: mid) =
      run generate ((run generate new front).step generate (.genToken now ip port)) mid :=
    fun mid => by rw [run_append, run_cons]
  have hput : ((run generate new front).step generate (.genToken now ip port)).tokens token ≠ none := by
    rw [tokens_genToken, hgen, Function.update_self]
    exact Option.some_ne_none now
  rw [hsplit]
  refine tokens_of_unconsumed hput fun mid op rest heq => ?_
  rw [← hsplit]
  exact hback mid op rest heq

/-- A token that was used is not accepted until it is generated again.
Source: `kademlia/database.cpp`. Kind: L -/
theorem tokens_of_consumed {db : Database} {token : Key} (h : db.tokens token = none) {ops : List Op}
    (hops : ∀ now ip port, .genToken now ip port ∈ ops → generate (tdata ip port now) ≠ token) :
    (run generate db ops).tokens token = none := by
  induction ops generalizing db with
  | nil => exact h
  | cons op ops ih =>
    have hstep : (db.step generate op).tokens token = none := by
      obtain ⟨now, ip, port, rfl, hgen, -⟩ | ⟨-, hnone⟩ | ⟨-, -, hsame⟩ :=
        @tokens_step generate db op token
      · exact absurd hgen (hops now ip port List.mem_cons_self)
      · exact hnone
      · rwa [hsame]
    exact ih hstep fun now ip port hmem => hops now ip port (List.mem_cons_of_mem op hmem)

/-- A token that is outstanding was given. Source: `Database::genToken`. Kind: L -/
theorem OutstandingAt.mem {ops : List Op} {token : Key} {ip : UInt32} {port : UInt16} {now : UInt64}
    (h : OutstandingAt generate ops token ip port now) : .genToken now ip port ∈ ops := by
  obtain ⟨-, front, back, rfl, -⟩ := h
  exact List.mem_append_right front List.mem_cons_self

/-- **Tokens.** After every run a token is accepted exactly if it is outstanding for the address, a
check that fails changes nothing, and a token that is accepted was given to no other address and is
not accepted again. Source: `Database::checkToken`. Kind: P -/
theorem checkToken_run (ops : List Op) (token : Key) (ip : UInt32) (port : UInt16)
    (hinj : Set.InjOn generate
      {x | x ∈ hashedIn generate new (ops ++ [.checkToken token ip port])}) :
    (((run generate new ops).checkToken generate token ip port).2 = true ↔
      Outstanding generate ops token ip port) ∧
    (((run generate new ops).checkToken generate token ip port).2 = false →
      ((run generate new ops).checkToken generate token ip port).1 = run generate new ops) ∧
    (((run generate new ops).checkToken generate token ip port).2 = true →
      (∀ now ip' port', .genToken now ip' port' ∈ ops → generate (tdata ip' port' now) = token →
        ip' = ip ∧ port' = port) ∧
      ∀ more, (∀ now ip' port', .genToken now ip' port' ∈ more →
          generate (tdata ip' port' now) ≠ token) →
        ∀ ip' port', ((run generate new (ops ++ .checkToken token ip port :: more)).checkToken generate
          token ip' port').2 = false) := by
  -- the texts of two generations, and of a generation and this check
  have hmem : ∀ {now ip' port'}, Op.genToken now ip' port' ∈ ops → tdata ip' port' now ∈
      {x | x ∈ hashedIn generate new (ops ++ [.checkToken token ip port])} :=
    fun h => tdata_mem_hashedIn (List.mem_append_left _ h) new
  have hcheck : ∀ {ts}, (run generate new ops).tokens token = some ts → tdata ip port ts ∈
      {x | x ∈ hashedIn generate new (ops ++ [.checkToken token ip port])} := by
    intro ts hts
    show _ ∈ hashedIn generate new (ops ++ [.checkToken token ip port])
    rw [hashedIn_append, List.mem_append, hashedIn, hashed, hts]
    exact .inr List.mem_cons_self
  have hgiven : ((run generate new ops).checkToken generate token ip port).2 = true →
      ∃ ts, (run generate new ops).tokens token = some ts ∧ generate (tdata ip port ts) = token ∧
        OutstandingAt generate ops token ip port ts := by
    intro htrue
    obtain ⟨ts, hts, heq⟩ := (checkToken_true_iff _ token ip port).mp htrue
    obtain ⟨ip', port', hout⟩ := outstanding_of_tokens hts
    have hsame : generate (tdata ip port ts) = generate (tdata ip' port' ts) :=
      heq.symm.trans hout.1.symm
    obtain ⟨rfl, rfl, -⟩ := tdata_injective (hinj (hcheck hts) (hmem hout.mem) hsame)
    exact ⟨ts, hts, heq.symm, hout⟩
  refine ⟨⟨fun htrue => ?_, fun hout => ?_⟩, checkToken_false, fun htrue => ⟨?_, ?_⟩⟩
  · obtain ⟨ts, -, -, hout⟩ := hgiven htrue
    exact ⟨ts, hout⟩
  · obtain ⟨now, hout⟩ := hout
    obtain ⟨ts, hts⟩ := Option.ne_none_iff_exists'.mp hout.tokens
    obtain ⟨ip', port', hout'⟩ := outstanding_of_tokens hts
    have hsame : generate (tdata ip port now) = generate (tdata ip' port' ts) :=
      hout.1.trans hout'.1.symm
    obtain ⟨rfl, rfl, rfl⟩ := tdata_injective (hinj (hmem hout.mem) (hmem hout'.mem) hsame)
    exact (checkToken_true_iff _ token ip port).mpr ⟨now, hts, hout.1.symm⟩
  · intro now ip' port' hgen hhash
    obtain ⟨ts, hts, heq, -⟩ := hgiven htrue
    obtain ⟨rfl, rfl, -⟩ := tdata_injective (hinj (hmem hgen) (hcheck hts) (hhash.trans heq.symm))
    exact ⟨rfl, rfl⟩
  · intro more hmore ip' port'
    have hnone :
        (run generate new (ops ++ .checkToken token ip port :: more)).tokens token = none := by
      have hsplit : run generate new (ops ++ .checkToken token ip port :: more) =
          run generate ((run generate new ops).checkToken generate token ip port).1 more := by
        rw [run_append, run_cons, step]
      have hout : (Database.mk (Function.update (run generate new ops).tokens token none)).tokens
          token = none := by
        dsimp only
        rw [Function.update_self]
      rw [hsplit, checkToken_true htrue]
      exact tokens_of_consumed hout hmore
    cases hagain : ((run generate new (ops ++ .checkToken token ip port :: more)).checkToken generate
        token ip' port').2 with
    | false => rfl
    | true =>
      obtain ⟨ts, hts, -⟩ := (checkToken_true_iff _ token ip' port').mp hagain
      rw [hnone] at hts
      cases hts

/-- Source: `SHA1Hash::generate`. Kind: D -/
def sha1 (bs : List UInt8) : Key := Key.ofBytes (Util.generate bs).toList

/-- Two nodes are given tokens. Kind: D -/
def twoGiven : List Op := [.genToken 0 1 1, .genToken 0 2 1]

/-- The two hashes of the sample differ. Source: `SHA1Hash::generate`. Kind: L -/
theorem sha1_given : sha1 (tdata 1 1 0) ≠ sha1 (tdata 2 1 0) := by
  intro h
  have hne : (sha1 (tdata 1 1 0)).hash 0 ≠ (sha1 (tdata 2 1 0)).hash 0 := by decide +kernel
  exact hne (congrFun (congrArg Key.hash h) 0)

/-- The texts hashed for them, and for a check of the first token. Source: `Database::genToken`,
`Database::checkToken`. Kind: L -/
theorem hashedIn_twoGiven {x : List UInt8} (h : x ∈ hashedIn sha1 new
    (twoGiven ++ [.checkToken (sha1 (tdata 1 1 0)) 1 1])) : x = tdata 1 1 0 ∨ x = tdata 2 1 0 := by
  have htoken : (run sha1 new twoGiven).tokens (sha1 (tdata 1 1 0)) = some 0 := by
    rw [twoGiven, run_cons, run_cons, run, List.foldl_nil, tokens_genToken,
      Function.update_of_ne sha1_given, tokens_genToken, Function.update_self]
  rw [hashedIn_append, List.mem_append] at h
  obtain h | h := h
  · obtain rfl | h := List.mem_cons.mp h
    · exact .inl rfl
    · obtain rfl | h := List.mem_cons.mp h
      · exact .inr rfl
      · cases h
  · rw [hashedIn, hashed, htoken] at h
    obtain rfl | h := List.mem_cons.mp h
    · exact .inl rfl
    · cases h

/-- What the sample says. Source: `Database::checkToken`. Kind: L -/
theorem checkToken_run_twoGiven :
    ((run sha1 new twoGiven).checkToken sha1 (sha1 (tdata 1 1 0)) 1 1).2 = true ↔
      Outstanding sha1 twoGiven (sha1 (tdata 1 1 0)) 1 1 := by
  refine (checkToken_run twoGiven (sha1 (tdata 1 1 0)) 1 1 fun x hx y hy hxy => ?_).1
  obtain rfl | rfl := hashedIn_twoGiven hx
  · obtain rfl | rfl := hashedIn_twoGiven hy
    · rfl
    · exact absurd hxy sha1_given
  · obtain rfl | rfl := hashedIn_twoGiven hy
    · exact absurd hxy.symm sha1_given
    · rfl

end Database

end KTorrent.Dht
