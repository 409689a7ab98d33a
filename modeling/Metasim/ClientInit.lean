import Metasim.Lib.CString
import Metasim.Lib.Ledger

/-! Start-up of a client, `metasim_init` of `libmetasim`: from the address file to the listener. -/
namespace Metasim

open CString Ledger

/-- `LINE_MAX` -/
def lineMax : ℕ := 2048

/-- `ENOTCONN` -/
def enotconn : ℤ := 107

/-- `isspace` -/
def isspace (c : Char) : Bool :=
  c = ' ' ∨ c = '\t' ∨ c = '\n' ∨ c = '\x0b' ∨ c = '\x0c' ∨ c = '\r'

/-- The address file once `access` reports anything but `ENOENT`: not to be read, not to be
opened after all, or with its content. -/
inductive ListenerFile
  | noAccess
  | noOpen
  | content (text : List Char)
deriving Repr, DecidableEq

/-- The outcome of the calls that can fail, `strdup` by its argument. -/
structure InitCalls where
  calloc : Bool := true
  strdupAddr : Bool := true
  strdupProto : Bool := true
  margoInit : Bool := true
  addrLookup : Bool := true
deriving Repr, DecidableEq

/-- Memory that is not written before: `linebuf`, and the byte in front of it. -/
structure LineMemory where
  linebuf : List Char
  below : Char
deriving Repr, DecidableEq

/-- Writes that a program may not do. -/
inductive InitFault
  | outsideLinebuf
  | throughNull
deriving Repr, DecidableEq

/-- What is obtained and released, in order. -/
inductive InitCall
  | strdupAddr | strdupProto | freeAddr | freeProto
  | margoInit (proto : List Char) | margoFinalize
  | callocSelf | freeSelf
deriving Repr, DecidableEq

/-- `metasim_ctx_t`: the listener by the string it was looked up from, the margo instance by
the protocol it was created with. -/
structure ClientCtx where
  listener : List Char
  proto : List Char
deriving Repr, DecidableEq

def orFault {α : Type} (x : Option α) (e : InitFault) : Except InitFault α :=
  match x with
  | some a => .ok a
  | none => .error e

/-- The byte at `&linebuf[i]`. -/
def byteAt (below : Char) (linebuf : List Char) (i : ℤ) : Char :=
  if i < 0 then below else linebuf.getD i.toNat nul

/-- `if (isspace(pos[0]))` the byte at `&linebuf[pos]` becomes NUL. -/
def stripAt (below : Char) (linebuf : List Char) (pos : ℤ) : Except InitFault (List Char) :=
  if isspace (byteAt below linebuf pos) then orFault (put linebuf pos nul) .outsideLinebuf
  else .ok linebuf

/-- The last character of the string in `linebuf` stripped; the string then. -/
def stripLast (below : Char) (linebuf : List Char) : Except InitFault (List Char) := do
  let str ← orFault (contents linebuf) .outsideLinebuf
  let linebuf ← stripAt below linebuf (str.length - 1)
  orFault (contents linebuf) .outsideLinebuf

/-- The part of `get_local_listener_addr` between `fopen` and `strdup`. -/
def readLine (m : LineMemory) (text : List Char) : Except InitFault (List Char) := do
  let linebuf ← orFault (fgets m.linebuf (lineMax - 1) text) .outsideLinebuf
  stripLast m.below linebuf

/-- `get_local_listener_addr`; at the end of the file `fgets` returns a null pointer. -/
def getLocalListenerAddr (e : InitCalls) (m : LineMemory) :
    ListenerFile → Except InitFault (Option (List Char))
  | .noAccess | .noOpen => .ok none
  | .content text =>
    if text = [] then .ok none
    else do
      let str ← readLine m text
      return if e.strdupAddr then some str else none

/-- `read_addr_proto`; the result of `strchr` is written through. -/
def readAddrProto (e : InitCalls) (listenerAddr : List Char) :
    Except InitFault (Option (List Char)) :=
  if e.strdupProto = false then .ok none
  else do
    let pos ← orFault (strchr listenerAddr ':') .throughNull
    let proto ← orFault ((put (listenerAddr ++ [nul]) pos nul).bind contents) .throughNull
    return some proto

/-- `init_rpc`: the code, the context if it is filled in, and the calls. -/
structure InitRpc where
  ret : ℤ
  ctx : Option ClientCtx
  calls : List InitCall
deriving Repr, DecidableEq

/-- `init_rpc` once there are the address and the protocol. -/
def initRpcWith (e : InitCalls) (addr proto : List Char) : InitRpc :=
  let obtained : List InitCall := [.strdupAddr, .strdupProto]
  let outFree : List InitCall := [.freeProto, .freeAddr]
  if e.margoInit = false then { ret := enotconn, ctx := none, calls := obtained ++ outFree }
  else if e.addrLookup = false then
    { ret := enotconn, ctx := none
      calls := obtained ++ [.margoInit proto, .margoFinalize] ++ outFree }
  else
    { ret := 0, ctx := some { listener := addr, proto }
      calls := obtained ++ [.margoInit proto] ++ outFree }

/-- `init_rpc` once there is an address. -/
def initRpcAt (e : InitCalls) (addr : List Char) : Except InitFault InitRpc := do
  match ← readAddrProto e addr with
  | none =>
    -- the address is freed here, and at the label
    return { ret := enotconn, ctx := none, calls := [.strdupAddr, .freeAddr, .freeAddr] }
  | some proto => return initRpcWith e addr proto

/-- `init_rpc` -/
def initRpc (e : InitCalls) (m : LineMemory) (file : ListenerFile) : Except InitFault InitRpc := do
  match ← getLocalListenerAddr e m file with
  | none => return { ret := enotconn, ctx := none, calls := [] }
  | some addr => initRpcAt e addr

/-- The end of `metasim_init`, which frees the context on an error. -/
def finishInit (r : InitRpc) : Option ClientCtx × List InitCall :=
  if r.ret ≠ 0 then (none, .callocSelf :: r.calls ++ [.freeSelf])
  else (r.ctx, .callocSelf :: r.calls)

/-- `metasim_init`: what it returns, and the calls. -/
def metasimInit (e : InitCalls) (m : LineMemory) (file : ListenerFile) :
    Except InitFault (Option ClientCtx × List InitCall) :=
  if e.calloc = false then .ok (none, [])
  else do
    let r ← initRpc e m file
    return finishInit r

/-! ## The address -/

variable {e : InitCalls} {m : LineMemory} {text addr : List Char} {file : ListenerFile}

/-- A string without a last character that is white space. -/
def stripped (str : List Char) : List Char :=
  if str.getLast?.any isspace then str.dropLast else str

/-- What `fgets` delivers as a string: of the first line, up to a NUL, `LINE_MAX - 2` characters. -/
def delivered (text : List Char) : List Char := (line (lineMax - 2) text).takeWhile (· ≠ nul)

theorem nul_not_mem_delivered (text : List Char) : nul ∉ delivered text := not_mem_takeWhile nul _

theorem nul_not_mem_stripped {str : List Char} (h : nul ∉ str) : nul ∉ stripped str := by
  unfold stripped
  split_ifs
  · exact fun hd => h ((List.dropLast_sublist _).subset hd)
  · exact h

theorem delivered_eq_nil (htext : text ≠ []) : delivered text = [] ↔ text.head? = some nul := by
  obtain ⟨c, rest, rfl⟩ := List.exists_cons_of_ne_nil htext
  have hline := head?_line 2045 (c :: rest)
  obtain ⟨l, hl⟩ : ∃ l, line 2046 (c :: rest) = c :: l := by
    cases h : line 2046 (c :: rest) with
    | nil => simp [h] at hline
    | cons d l =>
      rw [h] at hline
      exact ⟨l, by rw [Option.some.inj hline]⟩
  have hdef : delivered (c :: rest) = (c :: l).takeWhile (· ≠ nul) := by
    rw [← hl]
    rfl
  rw [hdef]
  by_cases hc : c = nul <;> simp [hc]

/-- `linebuf` after `fgets`. -/
theorem fgets_linebuf (hm : m.linebuf.length = lineMax) (htext : text ≠ []) :
    ∃ b, fgets m.linebuf (lineMax - 1) text = some (delivered text ++ nul :: b) := by
  have hlen : (line (lineMax - 2) text).length < m.linebuf.length := by
    have := length_line_le (lineMax - 2) text
    rw [hm]
    unfold lineMax at this ⊢
    omega
  obtain ⟨b, hb⟩ := buffer_split (line (lineMax - 2) text)
    (m.linebuf.drop ((line (lineMax - 2) text).length + 1))
  refine ⟨b, ?_⟩
  rw [fgets, if_neg htext, delivered, ← hb]
  exact store_some _ hlen

theorem byteAt_last (below c : Char) (t b : List Char) :
    byteAt below (t.concat c ++ nul :: b) ((t.concat c).length - 1) = c := by
  have hpos : ((t.concat c).length : ℤ) - 1 = t.length := by simp
  rw [hpos, byteAt, if_neg (by omega)]
  simp

/-- A string that is not empty loses its last character if that is white space. -/
theorem stripLast_eq {str : List Char} (below : Char) (b : List Char) (hne : str ≠ [])
    (hnul : nul ∉ str) : stripLast below (str ++ nul :: b) = .ok (stripped str) := by
  have hput := put_last b hne
  have hdrop := contents_append (nul :: b) fun h => hnul ((List.dropLast_sublist str).subset h)
  have hstr := contents_append b hnul
  obtain ⟨t, c, rfl⟩ := (List.eq_nil_or_concat str).resolve_left hne
  have hlast : (t.concat c).getLast?.any isspace = isspace c := by simp
  rw [stripLast, hstr, stripped, hlast]
  change (stripAt below (t.concat c ++ nul :: b) ((t.concat c).length - 1)).bind
    (fun linebuf => orFault (contents linebuf) .outsideLinebuf) = _
  rw [stripAt, byteAt_last]
  split_ifs
  · rw [hput]
    exact congrArg (orFault · _) hdrop
  · exact congrArg (orFault · _) hstr

/-- On the empty string the byte in front of the array is stripped. -/
theorem stripLast_nil {below : Char} (b : List Char) (hbelow : isspace below) :
    stripLast below (nul :: b) = .error .outsideLinebuf := by
  have hnil : contents (nul :: b) = some [] := contents_append (s := []) b (by simp)
  have hbyte : byteAt below (nul :: b) (-1) = below := rfl
  have hput : put (nul :: b) (-1) nul = none := if_neg (by omega)
  rw [stripLast, hnil]
  change (stripAt below (nul :: b) (-1)).bind _ = _
  rw [stripAt, hbyte, if_pos hbelow, hput]
  rfl

theorem readLine_eq (hm : m.linebuf.length = lineMax) (htext : text ≠ [])
    (hne : delivered text ≠ []) : readLine m text = .ok (stripped (delivered text)) := by
  obtain ⟨b, hb⟩ := fgets_linebuf hm htext
  rw [readLine, hb]
  exact stripLast_eq m.below b hne (nul_not_mem_delivered text)

theorem readLine_nil (hm : m.linebuf.length = lineMax) (htext : text ≠ [])
    (hnil : delivered text = []) (hbelow : isspace m.below) :
    readLine m text = .error .outsideLinebuf := by
  obtain ⟨b, hb⟩ := fgets_linebuf hm htext
  rw [hnil] at hb
  rw [readLine, hb]
  exact stripLast_nil b hbelow

/-- The protocol is the part before the first colon; without one nothing is there to cut. -/
theorem readAddrProto_eq (hnul : nul ∉ addr) (hproto : e.strdupProto = true) :
    readAddrProto e addr =
      if ':' ∈ addr then .ok (some (addr.takeWhile (· ≠ ':'))) else .error .throughNull := by
  rw [readAddrProto, if_neg (by simp [hproto]), strchr]
  split_ifs with hcolon
  · have hcut := contents_cut hcolon hnul
    change (orFault (Option.bind _ contents) _).bind _ = _
    rw [hcut]
    rfl
  · rfl

/-! ## The whole start-up -/

/-- The strings that `init_rpc` has to free. -/
inductive InitString
  | addr | proto
deriving Repr, DecidableEq

def strings : Ledger InitCall InitString where
  obtains call := match call with
    | .strdupAddr => some .addr
    | .strdupProto => some .proto
    | _ => none
  releases call := match call with
    | .freeAddr => some .addr
    | .freeProto => some .proto
    | _ => none

def instances : Ledger InitCall Unit where
  obtains call := match call with
    | .margoInit _ => some ()
    | _ => none
  releases call := match call with
    | .margoFinalize => some ()
    | _ => none

/-- The context belongs to the file: the listener to its address, the instance to the part of
that before the first colon. -/
def CtxOf (file : ListenerFile) (ctx : ClientCtx) : Prop :=
  ∃ text, file = .content text ∧ ctx.listener = stripped (delivered text) ∧
    ':' ∈ ctx.listener ∧ ctx.proto = ctx.listener.takeWhile (· ≠ ':')

/-- The start-up returns, with a context that belongs to the file or without one; its strings
are freed once each, and the margo instance is there with the context and not without it. -/
structure StartsUp (file : ListenerFile) (ctx : Option ClientCtx) (calls : List InitCall) :
    Prop where
  ctx_of_file : ∀ c, ctx = some c → CtxOf file c
  strings_freed : strings.Balanced calls
  instance_kept : instances.held calls () = if ctx.isSome then 1 else 0

/-- A file and outcomes of `strdup` that the start-up is prepared for. -/
def Prepared (e : InitCalls) : ListenerFile → Prop
  | .noAccess | .noOpen => True
  | .content text => text = [] ∨ (text.head? ≠ some nul ∧
      (e.strdupAddr = false ∨ (e.strdupProto = true ∧ ':' ∈ stripped (delivered text))))

theorem metasimInit_no_addr (hcalloc : e.calloc = true)
    (h : getLocalListenerAddr e m file = .ok none) :
    metasimInit e m file = .ok (none, [.callocSelf, .freeSelf]) := by
  rw [metasimInit, if_neg (by simp [hcalloc]), initRpc, h]
  rfl

theorem metasimInit_addr (hcalloc : e.calloc = true)
    (h : getLocalListenerAddr e m file = .ok (some addr)) :
    metasimInit e m file = (initRpcAt e addr).map finishInit := by
  rw [metasimInit, if_neg (by simp [hcalloc]), initRpc, h]
  rfl

theorem startsUp_nothing (file : ListenerFile) (calls : List InitCall)
    (h : calls = [] ∨ calls = [.callocSelf, .freeSelf]) : StartsUp file none calls := by
  rcases h with rfl | rfl
  all_goals
    refine ⟨fun c hc => by simp at hc, fun k => ?_, rfl⟩
    cases k <;> rfl

/-- With a protocol every outcome of the two margo calls is cleaned up. -/
theorem startsUp_with (e : InitCalls) (hctx : CtxOf file ⟨addr, addr.takeWhile (· ≠ ':')⟩) :
    StartsUp file (finishInit (initRpcWith e addr (addr.takeWhile (· ≠ ':')))).1
      (finishInit (initRpcWith e addr (addr.takeWhile (· ≠ ':')))).2 := by
  cases hinit : e.margoInit with
  | false =>
    simp only [initRpcWith, hinit, if_true, finishInit, enotconn]
    refine ⟨fun c hc => absurd hc (by simp), fun k => ?_, rfl⟩
    cases k <;> rfl
  | true =>
    cases hlookup : e.addrLookup with
    | false =>
      simp only [initRpcWith, hinit, hlookup, if_true, finishInit, enotconn]
      refine ⟨fun c hc => absurd hc (by simp), fun k => ?_, rfl⟩
      cases k <;> rfl
    | true =>
      simp only [initRpcWith, hinit, hlookup, finishInit]
      refine ⟨fun c hc => ?_, fun k => ?_, rfl⟩
      · obtain rfl := Option.some.inj hc
        exact hctx
      · cases k <;> rfl

/-- A file that does not begin with a NUL gives the address. -/
theorem getAddr_eq (hm : m.linebuf.length = lineMax) (htext : text ≠ [])
    (hhead : text.head? ≠ some nul) : getLocalListenerAddr e m (.content text) =
      .ok (if e.strdupAddr then some (stripped (delivered text)) else none) := by
  have hline := readLine_eq hm htext (mt (delivered_eq_nil htext).mp hhead)
  rw [getLocalListenerAddr, if_neg htext, hline]
  rfl

theorem startsUp_of_prepared (hm : m.linebuf.length = lineMax)
    (h : e.calloc = false ∨ Prepared e file) :
    ∃ ctx calls, metasimInit e m file = .ok (ctx, calls) ∧ StartsUp file ctx calls := by
  cases hcalloc : e.calloc with
  | false => exact ⟨none, [], by simp [metasimInit, hcalloc], startsUp_nothing file _ (Or.inl rfl)⟩
  | true =>
    have hp := h.resolve_left (by simp [hcalloc])
    have hnothing : getLocalListenerAddr e m file = .ok none →
        ∃ ctx calls, metasimInit e m file = .ok (ctx, calls) ∧ StartsUp file ctx calls :=
      fun hnone => ⟨none, _, metasimInit_no_addr hcalloc hnone,
        startsUp_nothing file _ (Or.inr rfl)⟩
    cases file with
    | noAccess | noOpen => exact hnothing rfl
    | content text =>
      by_cases htext : text = []
      · exact hnothing (if_pos htext)
      · obtain ⟨hhead, hdup⟩ := hp.resolve_left htext
        have hget := getAddr_eq (e := e) hm htext hhead
        cases hdupAddr : e.strdupAddr with
        | false =>
          rw [hdupAddr] at hget
          exact hnothing hget
        | true =>
          rw [hdupAddr] at hget
          obtain ⟨hproto, hcolon⟩ := hdup.resolve_left (by simp [hdupAddr])
          have hcut := readAddrProto_eq (nul_not_mem_stripped (nul_not_mem_delivered text)) hproto
          rw [if_pos hcolon] at hcut
          refine ⟨_, _, ?_, startsUp_with e ⟨text, rfl, rfl, hcolon, rfl⟩⟩
          rw [metasimInit_addr hcalloc hget, initRpcAt, hcut]
          rfl

/-! ## The three ways it goes wrong -/

/-- A NUL at the beginning: the byte in front of `linebuf` is taken for its last character. -/
theorem metasimInit_nul (hm : m.linebuf.length = lineMax) (hcalloc : e.calloc = true)
    (hhead : text.head? = some nul) (hbelow : isspace m.below) :
    metasimInit e m (.content text) = .error .outsideLinebuf := by
  have htext : text ≠ [] := by
    rintro rfl
    simp at hhead
  have hline := readLine_nil hm htext ((delivered_eq_nil htext).mpr hhead) hbelow
  rw [metasimInit, if_neg (by simp [hcalloc]), initRpc, getLocalListenerAddr, if_neg htext, hline]
  rfl

/-- Without memory for the protocol the address is freed twice. -/
theorem metasimInit_no_proto (hm : m.linebuf.length = lineMax) (hcalloc : e.calloc = true)
    (htext : text ≠ []) (hhead : text.head? ≠ some nul) (haddr : e.strdupAddr = true)
    (hproto : e.strdupProto = false) : metasimInit e m (.content text) =
      .ok (none, [.callocSelf, .strdupAddr, .freeAddr, .freeAddr, .freeSelf]) := by
  have hget := getAddr_eq (e := e) hm htext hhead
  rw [haddr] at hget
  rw [metasimInit_addr hcalloc hget, initRpcAt, readAddrProto, if_pos hproto]
  rfl

/-- Without a colon `strchr` gives a null pointer. -/
theorem metasimInit_no_colon (hm : m.linebuf.length = lineMax) (hcalloc : e.calloc = true)
    (htext : text ≠ []) (hhead : text.head? ≠ some nul) (haddr : e.strdupAddr = true)
    (hproto : e.strdupProto = true) (hcolon : ':' ∉ stripped (delivered text)) :
    metasimInit e m (.content text) = .error .throughNull := by
  have hget := getAddr_eq (e := e) hm htext hhead
  rw [haddr] at hget
  have hcut := readAddrProto_eq (nul_not_mem_stripped (nul_not_mem_delivered text)) hproto
  rw [if_neg hcolon] at hcut
  rw [metasimInit_addr hcalloc hget, initRpcAt, hcut]
  rfl

/-- The start-up is safe whatever the memory of `linebuf` and in front of it holds. -/
def StartUpSafe (e : InitCalls) (file : ListenerFile) : Prop :=
  ∀ m : LineMemory, m.linebuf.length = lineMax →
    ∃ ctx calls, metasimInit e m file = .ok (ctx, calls) ∧ StartsUp file ctx calls

/-- It is, if and only if there is no context to fill in, nothing to read, or a string that does
not begin with a NUL, and then the address cannot be copied, or it has a colon and the protocol
can be copied. -/
theorem start_up_safe_iff (e : InitCalls) (file : ListenerFile) :
    StartUpSafe e file ↔ e.calloc = false ∨ Prepared e file := by
  refine ⟨fun h => ?_, fun h m hm => startsUp_of_prepared hm h⟩
  by_contra hbad
  obtain ⟨hcalloc, hp⟩ := not_or.mp hbad
  have hcalloc : e.calloc = true := by simpa using hcalloc
  have hlen : (List.replicate lineMax 'a').length = lineMax := List.length_replicate
  obtain ⟨ctx, calls, hrun, hstarts⟩ := h ⟨List.replicate lineMax 'a', ' '⟩ hlen
  cases file with
  | noAccess | noOpen => exact hp trivial
  | content text =>
    obtain ⟨htext, hp⟩ := not_or.mp hp
    by_cases hhead : text.head? = some nul
    · rw [metasimInit_nul hlen hcalloc hhead rfl] at hrun
      cases hrun
    · obtain ⟨haddr, hproto⟩ := not_or.mp fun h => hp ⟨hhead, h⟩
      have haddr : e.strdupAddr = true := by simpa using haddr
      cases hdup : e.strdupProto with
      | false =>
        rw [metasimInit_no_proto hlen hcalloc htext hhead haddr hdup] at hrun
        cases hrun
        exact absurd (hstarts.strings_freed .addr) (by decide)
      | true =>
        have hcolon := fun h => hproto ⟨hdup, h⟩
        rw [metasimInit_no_colon hlen hcalloc htext hhead haddr hdup hcolon] at hrun
        cases hrun

/-! ## What the listener publishes -/

/-- `fprintf(fp, "%s", addrstr)` of `metasim_listener_init` -/
def publishAddr (addrstr : List Char) : ListenerFile := .content addrstr

/-- A published address is read back as it is. -/
theorem delivered_published {s : List Char} (hnul : nul ∉ s) (hline : '\n' ∉ s)
    (hlen : s.length ≤ lineMax - 2) : delivered s = s := by
  rw [delivered, line_plain _ hline, List.take_of_length_le hlen]
  exact List.takeWhile_eq_self_iff.mpr fun c hc => decide_eq_true fun heq => hnul (heq ▸ hc)

/-- The client finds the listener that published its address. -/
theorem published_address_found {s : List Char} (hm : m.linebuf.length = lineMax) (hnul : nul ∉ s)
    (hline : '\n' ∉ s) (hlen : s.length ≤ lineMax - 2) (hcolon : ':' ∈ s)
    (hlast : s.getLast?.any isspace = false) : ∃ calls, metasimInit {} m (publishAddr s) =
      .ok (some { listener := s, proto := s.takeWhile (· ≠ ':') }, calls) := by
  have hne : s ≠ [] := List.ne_nil_of_mem hcolon
  have hhead : s.head? ≠ some nul := fun h => hnul (List.mem_of_mem_head? h)
  have hstr : stripped (delivered s) = s := by
    rw [delivered_published hnul hline hlen, stripped, hlast]
    rfl
  have hget := getAddr_eq (e := {}) hm hne hhead
  have hcut := readAddrProto_eq (e := {}) (nul_not_mem_stripped (nul_not_mem_delivered s)) rfl
  rw [hstr] at hget hcut
  rw [if_pos hcolon] at hcut
  rw [publishAddr, metasimInit_addr rfl hget, initRpcAt, hcut]
  exact ⟨_, rfl⟩

/-- A file without a colon makes the client write through a null pointer; one that begins with a
NUL makes it write in front of `linebuf`, where white space is there; and without memory for
the protocol the address is freed twice. -/
theorem start_up_faults :
    let m : LineMemory := ⟨List.replicate lineMax 'a', ' '⟩
    ¬ StartUpSafe {} (.content ['a']) ∧
    metasimInit {} m (.content ['a']) = .error .throughNull ∧
    metasimInit {} m (.content [nul]) = .error .outsideLinebuf ∧
    metasimInit { strdupProto := false } m (.content ['a', ':']) =
      .ok (none, [.callocSelf, .strdupAddr, .freeAddr, .freeAddr, .freeSelf]) := by
  intro m
  have hlen : m.linebuf.length = lineMax := List.length_replicate
  have ha : ':' ∉ stripped (delivered ['a']) := by
    rw [delivered_published (by decide) (by decide) (by decide)]
    decide
  have hnull : metasimInit {} m (.content ['a']) = .error .throughNull :=
    metasimInit_no_colon hlen rfl (by simp) (by decide) rfl rfl ha
  refine ⟨fun h => ?_, hnull, metasimInit_nul hlen rfl rfl rfl,
    metasimInit_no_proto hlen rfl (by simp) (by decide) rfl rfl⟩
  obtain ⟨ctx, calls, hrun, -⟩ := h m hlen
  rw [hnull] at hrun
  cases hrun

end Metasim
