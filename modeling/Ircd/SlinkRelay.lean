import Ircd.Lib.StreamCodec

/-!
The relay loops of `servlink/io.c`, from `cmd_init` on: `read_data` and `write_net` carry the
bytes of the ircd to the network, `read_net` and `write_data` those of the network to the
ircd.

Each of the two has one buffer, which holds what a short write left over. While it holds
something, the descriptor it is read from has no callback, and the one it goes to has. The
codecs are given from outside, and so is what every system call returns. A failed call ends
the process. The control descriptors are left out.
-/

namespace Ircd

open List
open StreamCodec

/-- `READLEN`. -/
def READLEN : Nat := 16384

/-- `BUFLEN`. -/
def BUFLEN : Nat := READLEN * 6

/-- What a system call returns: a count or the bytes that were read, that it would block, or
an error. -/
inductive Answer (α : Type) where
  | got (a : α)
  | block
  | fatal

/-- How a callback can end the process: by `send_error`, or by an assertion that fails. -/
inductive Stop where
  | exit
  | assertion
  deriving DecidableEq, Repr

/-- `check_error` of a `read`; nothing is read when it would block. -/
def checkRead : Answer (List UInt8) → Except Stop (List UInt8)
  | .got [] => .error .exit
  | .got (b :: data) => .ok ((b :: data).take READLEN)
  | .block => .ok []
  | .fatal => .error .exit

/-- `check_error` of a `write` of so many bytes. -/
def checkWrite (len : Nat) : Answer Nat → Except Stop Nat
  | .got n => if min n len = 0 then .error .exit else .ok (min n len)
  | .block => .ok 0
  | .fatal => .error .exit

/-- `send_data_blocking`, with the counts that its writes return before the last one. -/
def sendDataBlocking : List Nat → List UInt8 → List UInt8
  | [], data => data
  | n :: counts, data =>
    if data.length ≤ n then data else data.take n ++ sendDataBlocking counts (data.drop n)

theorem sendDataBlocking_eq (counts : List Nat) (data : List UInt8) :
    sendDataBlocking counts data = data := by
  induction counts generalizing data with
  | nil => rfl
  | cons n counts ih =>
    unfold sendDataBlocking
    split
    · rfl
    · rw [ih, take_append_drop]

/-- The codecs: `deflate` and `inflate` of zlib, and the ciphers of OpenSSL. -/
structure Codecs (ζ ι κ : Type) where
  deflate : Compressor UInt8 ζ
  inflate : Decompressor UInt8 ι
  encrypt : Cipher UInt8 κ
  decrypt : Cipher UInt8 κ

/-- `struct slink_state` with what belongs to it: the codecs in use and `avail_out`, what the
last fill put into the buffer and the part of it that is to be written, whether the descriptor
it is filled from and the one it is written to have their callbacks, and all that was read and
written. -/
structure SlinkState (ζ κ : Type) where
  zip : Option ζ
  crypt : Option κ
  availOut : Nat := BUFLEN
  buf : List UInt8 := []
  ofs : Nat := 0
  len : Nat := 0
  readCb : Bool := true
  writeCb : Bool := false
  taken : List UInt8 := []
  sent : List UInt8 := []

namespace SlinkState

variable {ζ κ : Type} (st : SlinkState ζ κ)

def pending : List UInt8 := (st.buf.drop st.ofs).take st.len

/-- What a turn has read, with the codecs as they are afterwards, and what it has sent by
blocking writes. -/
def filled (data : List UInt8) (zip : Option ζ) (crypt : Option κ) (availOut : Nat)
    (flushed : List UInt8) : SlinkState ζ κ :=
  { st with
    zip := zip
    crypt := crypt
    availOut := availOut
    taken := st.taken ++ data
    sent := st.sent ++ flushed }

/-- The end of a turn: the buffer is written as far as it goes. When something is left, the
callbacks change. -/
def written (bytes : List UInt8) (ret : Nat) : SlinkState ζ κ :=
  if ret < bytes.length then
    { st with
      buf := bytes
      ofs := ret
      len := bytes.length - ret
      writeCb := true
      readCb := false
      sent := st.sent ++ bytes.take ret }
  else
    { st with
      buf := bytes
      sent := st.sent ++ bytes.take ret }

/-- A write of what is pending. When nothing is left, the callbacks change back. -/
def resumed (ret : Nat) : SlinkState ζ κ :=
  if st.len - ret = 0 then
    { st with
      len := 0
      ofs := 0
      writeCb := false
      readCb := true
      sent := st.sent ++ st.pending.take ret }
  else
    { st with
      len := st.len - ret
      ofs := st.ofs + ret
      sent := st.sent ++ st.pending.take ret }

end SlinkState

/-- A turn of the loop of `read_data` or `read_net`: the `read`, the `write`, and the counts of
the blocking writes, by what is left of the input. -/
structure Turn where
  read : Answer (List UInt8)
  write : Answer Nat
  blocking : Nat → List Nat := fun _ => []

/-- `write_net` and `write_data`. -/
def slinkWrite {ζ κ : Type} (write : Answer Nat) (st : SlinkState ζ κ) :
    Except Stop (SlinkState ζ κ) :=
  if st.len = 0 then .error .assertion
  else
    checkWrite st.len write >>= fun ret =>
      if ret = 0 then .ok st else .ok (st.resumed ret)

section

variable {ζ ι κ : Type} (K : Codecs ζ ι κ)

/-! ### From the ircd to the network -/

/-- The part of `read_data` that compresses, with `avail_out`. -/
def compress (zip : Option ζ) (data : List UInt8) :
    Except Stop (Option ζ × Nat × List UInt8) :=
  match zip with
  | none => .ok (none, BUFLEN, data)
  | some z =>
    match K.deflate.call z data BUFLEN with
    | none => .error .exit
    | some (z', taken, out) =>
      if BUFLEN - out.length = 0 then .error .exit
      else if taken ≠ data.length then .error .exit
      else .ok (some z', BUFLEN - out.length, out)

/-- An `EVP_EncryptUpdate` or `EVP_DecryptUpdate`, with the assertion behind it. -/
def cipherUpdate (C : Cipher UInt8 κ) (crypt : Option κ) (data : List UInt8) :
    Except Stop (Option κ × List UInt8) :=
  match crypt with
  | none => .ok (none, data)
  | some k =>
    match C.update k data with
    | none => .error .exit
    | some (k', out) => if out.length ≠ data.length then .error .assertion else .ok (some k', out)

/-- The loop of `read_data`, which ends when a read would block, and behind a short write. -/
def readDataLoop : List Turn → SlinkState ζ κ → Except Stop (SlinkState ζ κ)
  | [], st => .ok st
  | t :: turns, st =>
    checkRead t.read >>= fun data =>
      if data = [] then .ok st
      else
        compress K st.zip data >>= fun zipped =>
          cipherUpdate K.encrypt st.crypt zipped.2.2 >>= fun crypted =>
            checkWrite crypted.2.length t.write >>= fun ret =>
              let st := (st.filled data zipped.1 crypted.1 zipped.2.1 []).written crypted.2 ret
              if ret < crypted.2.length then .ok st else readDataLoop turns st

/-- `read_data`. -/
def readData (turns : List Turn) (st : SlinkState ζ κ) : Except Stop (SlinkState ζ κ) :=
  if st.len ≠ 0 then .error .assertion else readDataLoop K turns st

/-! ### From the network to the ircd -/

/-- The loop over `inflate`. It gives the state, what was sent by blocking writes, and what the
last call put into the buffer. -/
def inflateLoop (blocking : Nat → List Nat) (i : ι) (input : List UInt8) :
    Except Stop (ι × List UInt8 × List UInt8) :=
  match _ : K.inflate.call i input BUFLEN with
  | none => .error .exit
  | some (i', taken, out) =>
    if _ : input.drop taken = [] then .ok (i', [], out)
    else
      inflateLoop blocking i' (input.drop taken) >>= fun r =>
        .ok (r.1, sendDataBlocking (blocking (input.drop taken).length) out ++ r.2.1, r.2.2)
termination_by (input.length, (K.inflate.rest i input).length)
decreasing_by
  rename_i hcall hrest
  have hne : input ≠ [] := by
    rintro rfl
    exact hrest drop_nil
  have hpos := List.length_pos_iff.mpr hne
  by_cases htaken : taken = 0
  · have hout : out ≠ [] :=
      (K.inflate.progress hcall (by decide) hne).resolve_left (by simp [htaken])
    have hstream := congrArg List.length (K.inflate.stream hcall [])
    rw [append_nil, append_nil, length_append] at hstream
    have houtpos := List.length_pos_iff.mpr hout
    have hsame : input.drop taken = input := by rw [htaken, drop_zero]
    rw [hsame] at hstream ⊢
    exact Prod.Lex.right _ (by omega)
  · exact Prod.Lex.left _ _ (by
      rw [length_drop]
      omega)

/-- The part of `read_net` that decompresses, with `avail_out`. -/
def decompress (blocking : Nat → List Nat) (zip : Option ι) (data : List UInt8) :
    Except Stop (Option ι × Nat × List UInt8 × List UInt8) :=
  match zip with
  | none => .ok (none, BUFLEN, [], data)
  | some i =>
    inflateLoop K blocking i data >>= fun r =>
      .ok (some r.1, BUFLEN - r.2.2.length, r.2.1, r.2.2)

/-- The loop of `read_net`, which ends also when nothing was decompressed. -/
def readNetLoop : List Turn → SlinkState ι κ → Except Stop (SlinkState ι κ)
  | [], st => .ok st
  | t :: turns, st =>
    checkRead t.read >>= fun data =>
      if data = [] then .ok st
      else
        cipherUpdate K.decrypt st.crypt data >>= fun plain =>
          decompress K t.blocking st.zip plain.2 >>= fun r =>
            let st := st.filled data r.1 plain.1 r.2.1 r.2.2.1
            if r.2.2.2 = [] then .ok st
            else
              checkWrite r.2.2.2.length t.write >>= fun ret =>
                if ret < r.2.2.2.length then .ok (st.written r.2.2.2 ret)
                else readNetLoop turns (st.written r.2.2.2 ret)

/-- `read_net`. -/
def readNet (turns : List Turn) (st : SlinkState ι κ) : Except Stop (SlinkState ι κ) :=
  if st.len ≠ 0 then .error .assertion else readNetLoop K turns st

/-! ### The loop -/

/-- The process, with `out_state` and `in_state`. -/
structure Servlink (ζ ι κ : Type) where
  outState : SlinkState ζ κ
  inState : SlinkState ι κ

/-- What `select` finds ready in a pass of `io_loop`, and what the calls of the callbacks
return. -/
structure Pass where
  localReadable : Bool
  localWritable : Bool
  remoteReadable : Bool
  remoteWritable : Bool
  dataTurns : List Turn
  dataWrite : Answer Nat
  netTurns : List Turn
  netWrite : Answer Nat

/-- A callback is called when its descriptor was found ready and it is still there. -/
def callIf {σ : Type} (ready there : Bool) (cb : σ → Except Stop σ) (st : σ) : Except Stop σ :=
  if ready && there then cb st else .ok st

/-- A pass of `io_loop`: the local descriptors, then the network in both directions. Only
descriptors with a callback are in the sets of `select`. -/
def ioPass (p : Pass) (s : Servlink ζ ι κ) : Except Stop (Servlink ζ ι κ) :=
  callIf (p.localReadable && s.outState.readCb) s.outState.readCb (readData K p.dataTurns)
    s.outState >>= fun out =>
  callIf (p.localWritable && s.inState.writeCb) s.inState.writeCb (slinkWrite p.dataWrite)
    s.inState >>= fun inc =>
  callIf (p.remoteReadable && s.inState.readCb) inc.readCb (readNet K p.netTurns)
    inc >>= fun inc =>
  callIf (p.remoteWritable && s.outState.writeCb) out.writeCb (slinkWrite p.netWrite)
    out >>= fun out =>
  .ok ⟨out, inc⟩

/-- `io_loop`. -/
def ioLoop (passes : List Pass) (s : Servlink ζ ι κ) : Except Stop (Servlink ζ ι κ) :=
  passes.foldlM (fun s p => ioPass K p s) s

end

/-! ### What a callback leaves -/

/-- A callback that ends in a good state, or by `send_error`, and not by an assertion. -/
def Safe {α : Type} (good : α → Prop) : Except Stop α → Prop
  | .ok a => good a
  | .error .exit => True
  | .error .assertion => False

theorem Safe.bind {α β : Type} {good : α → Prop} {good' : β → Prop} {r : Except Stop α}
    {f : α → Except Stop β} (h : Safe good r) (hf : ∀ a, good a → Safe good' (f a)) :
    Safe good' (r >>= f) := by
  cases r with
  | ok a => exact hf a h
  | error e =>
    cases e with
    | exit => exact trivial
    | assertion => exact h.elim

theorem safe_checkRead (a : Answer (List UInt8)) : Safe (fun _ => True) (checkRead a) := by
  unfold checkRead
  split <;> exact trivial

theorem safe_checkWrite (len : Nat) (a : Answer Nat) : Safe (· ≤ len) (checkWrite len a) := by
  unfold checkWrite
  split
  · split
    · exact trivial
    · exact Nat.min_le_right ..
  · exact Nat.zero_le len
  · exact trivial

/-- The callbacks of a state follow what is pending. -/
structure SlinkState.Waits {ζ κ : Type} (st : SlinkState ζ κ) : Prop where
  write : st.writeCb = true ↔ st.len ≠ 0
  read : st.readCb = true ↔ st.len = 0
  fits : st.len ≠ 0 → st.ofs + st.len = st.buf.length

section

variable {ζ ι κ : Type} {K : Codecs ζ ι κ}

/-! ### Writes -/

theorem SlinkState.pending_of_len {st : SlinkState ζ κ} (h : st.len = 0) : st.pending = [] := by
  rw [pending, h, take_zero]

theorem SlinkState.resumed_spec {st : SlinkState ζ κ} (h : st.Waits) (hlen : st.len ≠ 0)
    {ret : Nat} (hret : ret ≤ st.len) :
    (st.resumed ret).Waits ∧
      (st.resumed ret).sent ++ (st.resumed ret).pending = st.sent ++ st.pending := by
  unfold resumed
  have hfits := h.fits hlen
  split
  · rename_i hall
    refine ⟨⟨by simp, by simp, fun hne => absurd rfl hne⟩, ?_⟩
    have htake : st.pending.take ret = st.pending := by
      apply take_of_length_le
      rw [pending, length_take]
      omega
    change st.sent ++ st.pending.take ret ++ (st.buf.drop 0).take 0 = st.sent ++ st.pending
    rw [take_zero, htake, append_nil]
  · rename_i hleft
    refine ⟨⟨?_, ?_, fun _ => ?_⟩, ?_⟩
    · exact iff_of_true (h.write.mpr hlen) hleft
    · exact iff_of_false (fun hread => hlen (h.read.mp hread)) hleft
    · dsimp only
      omega
    · have hrest : ((st.buf.drop (st.ofs + ret)).take (st.len - ret)) = st.pending.drop ret := by
        rw [pending, drop_take, drop_drop]
      change st.sent ++ st.pending.take ret ++
        (st.buf.drop (st.ofs + ret)).take (st.len - ret) = st.sent ++ st.pending
      rw [hrest, append_assoc, take_append_drop]

theorem SlinkState.written_spec {st : SlinkState ζ κ} (h : st.Waits) (hlen : st.len = 0)
    {bytes : List UInt8} {ret : Nat} (hret : ret ≤ bytes.length) :
    (st.written bytes ret).Waits ∧
      (st.written bytes ret).sent ++ (st.written bytes ret).pending = st.sent ++ bytes ∧
      (¬ret < bytes.length → (st.written bytes ret).len = 0) := by
  unfold written
  split
  · rename_i hshort
    refine ⟨⟨?_, ?_, fun _ => ?_⟩, ?_, fun hnot => absurd hshort hnot⟩
    · exact iff_of_true rfl (by dsimp only; omega)
    · exact iff_of_false (by simp) (by dsimp only; omega)
    · dsimp only
      omega
    · have hrest : (bytes.drop ret).take (bytes.length - ret) = bytes.drop ret :=
        take_of_length_le (length_drop ▸ Nat.le_refl _)
      change st.sent ++ bytes.take ret ++ (bytes.drop ret).take (bytes.length - ret) =
        st.sent ++ bytes
      rw [hrest, append_assoc, take_append_drop]
  · rename_i hfull
    refine ⟨⟨h.write, h.read, fun hne => absurd hlen hne⟩, ?_, fun _ => hlen⟩
    have htake : bytes.take ret = bytes := take_of_length_le (by omega)
    change st.sent ++ bytes.take ret ++ (bytes.drop st.ofs).take st.len = st.sent ++ bytes
    rw [hlen, take_zero, htake, append_nil]

/-! ### Codecs -/

theorem safe_compress {zip : Option ζ} {data : List UInt8} :
    Safe (fun r => ∀ more, K.deflate.decode? zip (r.2.2 ++ more) =
      data ++ K.deflate.decode? r.1 more) (compress K zip data) := by
  unfold compress
  split
  · exact fun more => rfl
  · split
    · exact trivial
    · rename_i z z' taken out hcall
      split
      · exact trivial
      · rename_i hroom
        split
        · exact trivial
        · rename_i htaken
          rw [not_not.mp htaken] at hcall
          have hlen : out.length < BUFLEN := by omega
          exact K.deflate.flushed hcall hlen

theorem safe_cipherUpdate (C : Cipher UInt8 κ) (crypt : Option κ) (data : List UInt8) :
    Safe (fun r => ∀ more, C.image? crypt (data ++ more) = r.2 ++ C.image? r.1 more)
      (cipherUpdate C crypt data) := by
  unfold cipherUpdate
  split
  · exact fun more => rfl
  · split
    · exact trivial
    · rename_i hcall
      rw [if_neg (not_not.mpr (C.length hcall))]
      exact C.stream hcall

theorem safe_inflateLoop (blocking : Nat → List Nat) (i : ι) (input : List UInt8) :
    Safe (fun r => (∀ more, K.inflate.rest i (input ++ more) =
        r.2.1 ++ r.2.2 ++ K.inflate.rest r.1 more) ∧
      (r.2.2.length < BUFLEN → K.inflate.rest r.1 [] = []))
      (inflateLoop K blocking i input) := by
  induction i, input using inflateLoop.induct (K := K) with
  | case1 i input hcall =>
    unfold inflateLoop
    split
    · exact trivial
    · rename_i hcall'
      rw [hcall] at hcall'
      cases hcall'
  | case2 i input i' taken out hcall hrest =>
    unfold inflateLoop
    split
    · exact trivial
    · rename_i hcall'
      rw [hcall] at hcall'
      cases hcall'
      rw [dif_pos hrest]
      refine ⟨fun more => ?_, K.inflate.settled hcall⟩
      rw [K.inflate.stream hcall more, hrest]
      rfl
  | case3 i input i' taken out hcall hrest ih =>
    unfold inflateLoop
    split
    · exact trivial
    · rename_i hcall'
      rw [hcall] at hcall'
      cases hcall'
      rw [dif_neg hrest]
      refine ih.bind fun r hr => ⟨fun more => ?_, hr.2⟩
      rw [K.inflate.stream hcall more, hr.1 more, sendDataBlocking_eq]
      simp only [append_assoc]

theorem safe_decompress (blocking : Nat → List Nat) (zip : Option ι) (data : List UInt8) :
    Safe (fun r => (∀ more, K.inflate.rest? zip (data ++ more) =
        r.2.2.1 ++ r.2.2.2 ++ K.inflate.rest? r.1 more) ∧
      (r.2.1 ≠ 0 → K.inflate.rest? r.1 [] = []))
      (decompress K blocking zip data) := by
  unfold decompress
  split
  · exact ⟨fun more => rfl, fun _ => rfl⟩
  · refine (safe_inflateLoop blocking _ data).bind fun r hr => ⟨hr.1, fun hne => ?_⟩
    exact hr.2 (by dsimp only at hne; omega)

/-! ### The two directions -/

theorem SlinkState.resumed_same (st : SlinkState ζ κ) (ret : Nat) :
    (st.resumed ret).zip = st.zip ∧ (st.resumed ret).crypt = st.crypt ∧
      (st.resumed ret).availOut = st.availOut ∧ (st.resumed ret).taken = st.taken := by
  unfold resumed
  split <;> exact ⟨rfl, rfl, rfl, rfl⟩

theorem SlinkState.written_same (st : SlinkState ζ κ) (bytes : List UInt8) (ret : Nat) :
    (st.written bytes ret).zip = st.zip ∧ (st.written bytes ret).crypt = st.crypt ∧
      (st.written bytes ret).availOut = st.availOut ∧ (st.written bytes ret).taken = st.taken := by
  unfold written
  split <;> exact ⟨rfl, rfl, rfl, rfl⟩

/-- What was sent to the network and what is pending for it is what was read, compressed and
encrypted. -/
structure RelaysOut (K : Codecs ζ ι κ) (zip : Option ζ) (crypt : Option κ)
    (st : SlinkState ζ κ) : Prop where
  waits : st.Waits
  stream : ∃ zipped,
    (∀ more, K.encrypt.image? crypt (zipped ++ more) =
      st.sent ++ st.pending ++ K.encrypt.image? st.crypt more) ∧
    ∀ more, K.deflate.decode? zip (zipped ++ more) =
      st.taken ++ K.deflate.decode? st.zip more

/-- What was sent to the ircd, what is pending for it and what is held back is what was read,
decrypted and decompressed. Nothing is held back while there was room. -/
structure RelaysIn (K : Codecs ζ ι κ) (zip : Option ι) (crypt : Option κ)
    (st : SlinkState ι κ) : Prop where
  waits : st.Waits
  stream : ∃ plain,
    (∀ more, K.decrypt.image? crypt (st.taken ++ more) =
      plain ++ K.decrypt.image? st.crypt more) ∧
    ∀ more, K.inflate.rest? zip (plain ++ more) =
      st.sent ++ st.pending ++ K.inflate.rest? st.zip more
  settled : st.availOut ≠ 0 → K.inflate.rest? st.zip [] = []

section

variable {zip₀ : Option ζ} {crypt₀ : Option κ} {st : SlinkState ζ κ}

theorem RelaysOut.turn (h : RelaysOut K zip₀ crypt₀ st) (hlen : st.len = 0)
    {data bytes : List UInt8} {zipped : Option ζ × Nat × List UInt8} {crypt : Option κ}
    (hzip : ∀ more, K.deflate.decode? st.zip (zipped.2.2 ++ more) =
      data ++ K.deflate.decode? zipped.1 more)
    (hcrypt : ∀ more, K.encrypt.image? st.crypt (zipped.2.2 ++ more) =
      bytes ++ K.encrypt.image? crypt more)
    {ret : Nat} (hret : ret ≤ bytes.length) :
    RelaysOut K zip₀ crypt₀ ((st.filled data zipped.1 crypt zipped.2.1 []).written bytes ret) := by
  have hwaits : (st.filled data zipped.1 crypt zipped.2.1 []).Waits :=
    ⟨h.waits.write, h.waits.read, h.waits.fits⟩
  obtain ⟨hwrote, hsent, -⟩ := SlinkState.written_spec hwaits hlen hret
  obtain ⟨hz, hc, -, ht⟩ := (st.filled data zipped.1 crypt zipped.2.1 []).written_same bytes ret
  obtain ⟨before, himage, hdecode⟩ := h.stream
  refine ⟨hwrote, before ++ zipped.2.2, fun more => ?_, fun more => ?_⟩
  · rw [append_assoc, himage, hcrypt, hsent, hc, SlinkState.pending_of_len hlen]
    simp only [SlinkState.filled, append_nil, append_assoc]
  · rw [append_assoc, hdecode, hzip, hz, ht]
    simp only [SlinkState.filled, append_assoc]

theorem RelaysOut.readDataLoop (h : RelaysOut K zip₀ crypt₀ st) (hlen : st.len = 0)
    (turns : List Turn) : Safe (RelaysOut K zip₀ crypt₀) (readDataLoop K turns st) := by
  induction turns generalizing st with
  | nil => exact h
  | cons t turns ih =>
    unfold Ircd.readDataLoop
    refine (safe_checkRead t.read).bind fun data _ => ?_
    split
    · exact h
    · refine safe_compress.bind fun zipped hzip => ?_
      refine (safe_cipherUpdate K.encrypt st.crypt zipped.2.2).bind fun crypted hcrypt => ?_
      refine (safe_checkWrite _ t.write).bind fun ret hret => ?_
      have hturn := h.turn hlen hzip hcrypt hret
      dsimp only
      split
      · exact hturn
      · rename_i hfull
        have hwaits : (st.filled data zipped.1 crypted.1 zipped.2.1 []).Waits :=
          ⟨h.waits.write, h.waits.read, h.waits.fits⟩
        exact ih hturn ((SlinkState.written_spec hwaits hlen hret).2.2 hfull)

theorem RelaysOut.readData (h : RelaysOut K zip₀ crypt₀ st) (hread : st.readCb = true)
    (turns : List Turn) : Safe (RelaysOut K zip₀ crypt₀) (readData K turns st) := by
  have hlen : st.len = 0 := h.waits.read.mp hread
  unfold Ircd.readData
  rw [if_neg (not_not.mpr hlen)]
  exact h.readDataLoop hlen turns

theorem RelaysOut.write (h : RelaysOut K zip₀ crypt₀ st) (hwrite : st.writeCb = true)
    (answer : Answer Nat) : Safe (RelaysOut K zip₀ crypt₀) (slinkWrite answer st) := by
  have hlen : st.len ≠ 0 := h.waits.write.mp hwrite
  unfold slinkWrite
  rw [if_neg hlen]
  refine (safe_checkWrite st.len answer).bind fun ret hret => ?_
  split
  · exact h
  · obtain ⟨hwaits, hsent⟩ := SlinkState.resumed_spec h.waits hlen hret
    obtain ⟨hz, hc, -, ht⟩ := st.resumed_same ret
    exact ⟨hwaits, by rw [hsent, hz, hc, ht]; exact h.stream⟩

end

section

variable {zip₀ : Option ι} {crypt₀ : Option κ} {st : SlinkState ι κ}

theorem RelaysIn.filled (h : RelaysIn K zip₀ crypt₀ st) (hlen : st.len = 0)
    {data plain : List UInt8} {crypt : Option κ} {r : Option ι × Nat × List UInt8 × List UInt8}
    (hcrypt : ∀ more, K.decrypt.image? st.crypt (data ++ more) =
      plain ++ K.decrypt.image? crypt more)
    (hzip : ∀ more, K.inflate.rest? st.zip (plain ++ more) =
      r.2.2.1 ++ r.2.2.2 ++ K.inflate.rest? r.1 more) :
    ∃ before,
      (∀ more, K.decrypt.image? crypt₀ (st.taken ++ data ++ more) =
        before ++ K.decrypt.image? crypt more) ∧
      ∀ more, K.inflate.rest? zip₀ (before ++ more) =
        st.sent ++ r.2.2.1 ++ r.2.2.2 ++ K.inflate.rest? r.1 more := by
  obtain ⟨before, himage, hrest⟩ := h.stream
  refine ⟨before ++ plain, fun more => ?_, fun more => ?_⟩
  · rw [append_assoc, himage, hcrypt, append_assoc]
  · rw [append_assoc, hrest, hzip, SlinkState.pending_of_len hlen]
    simp only [append_nil, append_assoc]

theorem RelaysIn.readNetLoop (h : RelaysIn K zip₀ crypt₀ st) (hlen : st.len = 0)
    (turns : List Turn) : Safe (RelaysIn K zip₀ crypt₀) (readNetLoop K turns st) := by
  induction turns generalizing st with
  | nil => exact h
  | cons t turns ih =>
    unfold Ircd.readNetLoop
    refine (safe_checkRead t.read).bind fun data _ => ?_
    split
    · exact h
    · refine (safe_cipherUpdate K.decrypt st.crypt data).bind fun plain hcrypt => ?_
      refine (safe_decompress t.blocking st.zip plain.2).bind fun r hzip => ?_
      obtain ⟨before, himage, hrest⟩ := h.filled hlen hcrypt hzip.1
      have hwaits : (st.filled data r.1 plain.1 r.2.1 r.2.2.1).Waits :=
        ⟨h.waits.write, h.waits.read, h.waits.fits⟩
      dsimp only
      split
      · rename_i hnothing
        refine ⟨hwaits, ⟨before, himage, fun more => ?_⟩, hzip.2⟩
        have hpending : (st.filled data r.1 plain.1 r.2.1 r.2.2.1).pending = [] :=
          SlinkState.pending_of_len hlen
        rw [hrest, hnothing, hpending]
        rfl
      · refine (safe_checkWrite _ t.write).bind fun ret hret => ?_
        obtain ⟨hwrote, hsent, hdone⟩ := SlinkState.written_spec hwaits hlen hret
        obtain ⟨hz, hc, ha, ht⟩ :=
          (st.filled data r.1 plain.1 r.2.1 r.2.2.1).written_same r.2.2.2 ret
        have hturn : RelaysIn K zip₀ crypt₀
            ((st.filled data r.1 plain.1 r.2.1 r.2.2.1).written r.2.2.2 ret) := by
          refine ⟨hwrote, ⟨before, fun more => ?_, fun more => ?_⟩, ?_⟩
          · rw [ht, hc]
            exact himage more
          · rw [hsent, hz]
            exact hrest more
          · rw [ha, hz]
            exact hzip.2
        split
        · exact hturn
        · exact ih hturn (hdone ‹_›)

theorem RelaysIn.readNet (h : RelaysIn K zip₀ crypt₀ st) (hread : st.readCb = true)
    (turns : List Turn) : Safe (RelaysIn K zip₀ crypt₀) (readNet K turns st) := by
  have hlen : st.len = 0 := h.waits.read.mp hread
  unfold Ircd.readNet
  rw [if_neg (not_not.mpr hlen)]
  exact h.readNetLoop hlen turns

theorem RelaysIn.write (h : RelaysIn K zip₀ crypt₀ st) (hwrite : st.writeCb = true)
    (answer : Answer Nat) : Safe (RelaysIn K zip₀ crypt₀) (slinkWrite answer st) := by
  have hlen : st.len ≠ 0 := h.waits.write.mp hwrite
  unfold slinkWrite
  rw [if_neg hlen]
  refine (safe_checkWrite st.len answer).bind fun ret hret => ?_
  split
  · exact h
  · obtain ⟨hwaits, hsent⟩ := SlinkState.resumed_spec h.waits hlen hret
    obtain ⟨hz, hc, ha, ht⟩ := st.resumed_same ret
    exact ⟨hwaits, by rw [hsent, hz, hc, ht]; exact h.stream, by rw [ha, hz]; exact h.settled⟩

end

/-! ### Runs -/

theorem safe_callIf {σ : Type} {good : σ → Prop} {ready there : Bool} {cb : σ → Except Stop σ}
    {st : σ} (h : good st) (hcb : there = true → Safe good (cb st)) :
    Safe good (callIf ready there cb st) := by
  unfold callIf
  split
  · rename_i hboth
    exact hcb (Bool.and_eq_true_iff.mp hboth).2
  · exact h

/-- The codecs that a link starts with. A stream that is decompressed holds nothing back
yet. -/
structure SlinkStart (K : Codecs ζ ι κ) where
  zipOut : Option ζ
  cryptOut : Option κ
  zipIn : Option ι
  cryptIn : Option κ
  fresh : K.inflate.rest? zipIn [] = []

/-- `cmd_init`. -/
def SlinkStart.init (start : SlinkStart K) : Servlink ζ ι κ where
  outState := { zip := start.zipOut, crypt := start.cryptOut }
  inState := { zip := start.zipIn, crypt := start.cryptIn }

def Relays (start : SlinkStart K) (s : Servlink ζ ι κ) : Prop :=
  RelaysOut K start.zipOut start.cryptOut s.outState ∧
    RelaysIn K start.zipIn start.cryptIn s.inState

theorem relays_init (start : SlinkStart K) : Relays start start.init := by
  refine ⟨⟨⟨?_, iff_of_true rfl rfl, fun h => absurd rfl h⟩, [], fun _ => rfl, fun _ => rfl⟩,
    ⟨⟨?_, iff_of_true rfl rfl, fun h => absurd rfl h⟩, ⟨[], fun _ => rfl, fun _ => rfl⟩,
      fun _ => start.fresh⟩⟩
  · exact iff_of_false Bool.false_ne_true fun h => h rfl
  · exact iff_of_false Bool.false_ne_true fun h => h rfl

theorem Relays.ioPass {start : SlinkStart K} {s : Servlink ζ ι κ} (h : Relays start s)
    (p : Pass) : Safe (Relays start) (ioPass K p s) := by
  obtain ⟨hout, hin⟩ := h
  unfold Ircd.ioPass
  refine (safe_callIf hout fun hread => hout.readData hread _).bind fun out hout => ?_
  refine (safe_callIf hin fun hwrite => hin.write hwrite _).bind fun inc hin => ?_
  refine (safe_callIf hin fun hread => hin.readNet hread _).bind fun inc hin => ?_
  refine (safe_callIf hout fun hwrite => hout.write hwrite _).bind fun out hout => ?_
  exact ⟨hout, hin⟩

theorem Relays.ioLoop {start : SlinkStart K} {s : Servlink ζ ι κ} (h : Relays start s)
    (passes : List Pass) : Safe (Relays start) (ioLoop K passes s) := by
  induction passes generalizing s with
  | nil => exact h
  | cons p passes ih => exact (h.ioPass p).bind fun s hs => ih hs

end

/-! ### A link with cipher feedback -/

/-- Nothing is compressed, and the cipher is one of feedback. -/
def feedbackCodecs : Codecs Unit Unit UInt8 where
  deflate := storedCompressor UInt8
  inflate := storedDecompressor UInt8
  encrypt := feedbackCipher (· + 1)
  decrypt := unfeedbackCipher (· + 1)

def feedbackStart : SlinkStart feedbackCodecs where
  zipOut := some ()
  cryptOut := some 0
  zipIn := some ()
  cryptIn := some 0
  fresh := rfl

/-- A pass in which the ircd sends a line of which the network takes a byte. -/
def shortWrite : Pass where
  localReadable := true
  localWritable := false
  remoteReadable := false
  remoteWritable := true
  dataTurns := [{ read := .got [80, 13, 10], write := .got 1 }]
  dataWrite := .block
  netTurns := []
  netWrite := .got 16384

/-- The rest of the line goes in the next pass, where nothing new is read before it. -/
example : (ioLoop feedbackCodecs [shortWrite, shortWrite] feedbackStart.init).map
      (fun s => (s.outState.taken, s.outState.sent, s.outState.pending)) =
    .ok ([80, 13, 10], feedback (· + 1) 0 [80, 13, 10], []) := by
  decide

section

variable {ζ ι κ : Type} {K : Codecs ζ ι κ}

/-- Two servlinks back to back, where what decrypts and decompresses at the far end takes back
what encrypts and compresses at the near one, and the network brings the first part of what was
sent. The far ircd is sent a first part of what was read from the near one, and all of it when
nothing is on its way and the decompressor had room. -/
theorem servlinks_carry (near far : SlinkStart K)
    (hcrypt : ∀ s, K.decrypt.image? far.cryptIn s = K.encrypt.undo? near.cryptOut s)
    (hzip : ∀ s, K.inflate.rest? far.zipIn s = K.deflate.decode? near.zipOut s)
    (passes passes' : List Pass) {a b : Servlink ζ ι κ}
    (ha : ioLoop K passes near.init = .ok a) (hb : ioLoop K passes' far.init = .ok b)
    (hnet : b.inState.taken <+: a.outState.sent) :
    b.inState.sent <+: a.outState.taken ∧
      (b.inState.taken = a.outState.sent → a.outState.len = 0 → b.inState.len = 0 →
        b.inState.availOut ≠ 0 → b.inState.sent = a.outState.taken) := by
  have hnear := (relays_init near).ioLoop passes
  have hfar := (relays_init far).ioLoop passes'
  rw [ha] at hnear
  rw [hb] at hfar
  obtain ⟨zipped, himage, hdecode⟩ := hnear.1.stream
  obtain ⟨plain, hplain, hrest⟩ := hfar.2.stream
  -- all that the near end has made of the bytes from its ircd comes out as these bytes
  have hout : K.inflate.rest? far.zipIn (K.decrypt.image? far.cryptIn
      (a.outState.sent ++ a.outState.pending)) = a.outState.taken := by
    have hbytes := himage []
    have hread := hdecode []
    rw [append_nil, K.encrypt.image?_nil, append_nil] at hbytes
    rw [append_nil, K.deflate.decode?_nil, append_nil] at hread
    rw [hcrypt, hzip, ← hbytes, K.encrypt.undo?_image?, hread]
  constructor
  · obtain ⟨behind, hbehind⟩ := hnet
    rw [← hbehind, append_assoc, hplain, hrest, append_assoc] at hout
    exact ⟨_, hout⟩
  · intro htaken hnone hnone' hroom
    have hpending : a.outState.pending = [] := SlinkState.pending_of_len hnone
    have hpending' : b.inState.pending = [] := SlinkState.pending_of_len hnone'
    have hplain' := hplain []
    have hrest' := hrest []
    rw [append_nil, K.decrypt.image?_nil, append_nil] at hplain'
    rw [append_nil, hfar.2.settled hroom, hpending', append_nil, append_nil] at hrest'
    rw [hpending, append_nil, ← htaken, hplain', hrest'] at hout
    exact hout

end

/-- A pass in which the network brings the line and the ircd takes it. -/
def arrival (bytes : List UInt8) : Pass where
  localReadable := false
  localWritable := false
  remoteReadable := true
  remoteWritable := false
  dataTurns := []
  dataWrite := .block
  netTurns := [{ read := .got bytes, write := .got bytes.length }]
  netWrite := .block

def plainStart : SlinkStart feedbackCodecs where
  zipOut := none
  cryptOut := some 0
  zipIn := none
  cryptIn := some 0
  fresh := rfl

theorem servlinks_carry_line :
    ∃ a b, ioLoop feedbackCodecs [shortWrite, shortWrite] plainStart.init = .ok a ∧
      ioLoop feedbackCodecs [arrival (feedback (· + 1) 0 [80, 13, 10])] plainStart.init = .ok b ∧
      b.inState.sent = a.outState.taken :=
  ⟨_, _, rfl, rfl, (servlinks_carry plainStart plainStart (fun _ => rfl) (fun _ => rfl)
    [shortWrite, shortWrite] [arrival (feedback (· + 1) 0 [80, 13, 10])] rfl rfl ⟨[], rfl⟩).2
    rfl rfl rfl (by decide)⟩

end Ircd
