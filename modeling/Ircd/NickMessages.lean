import Ircd.Registration

/-!
The NICK and UID messages (`m_nick.c`).

`parv` is the vector of parameters with the name of the sender in front, so its
length is `parc`. A nick that is in use is settled by `perform_nick_collides`
from the two timestamps and from whether user and host are the same.
-/

namespace Ircd

/-- `parv[k]`. -/
def param (parv : List CStr) (k : Nat) : CStr := parv.getD k []

/-! ### Nick collisions -/

/-- `sameuser`. -/
def sameUser (target : Client) (username host : CStr) : Bool :=
  ircEq target.username username && ircEq target.host host

/-- How a collision ends. -/
inductive Collision where
  | killBoth
  | keepTarget
  | keepNew
  deriving DecidableEq, Repr

/-- The rule of `perform_nick_collides`, the same in both of its halves. -/
def collision (newts : Int) (target : Client) (username host : CStr) : Collision :=
  if newts = 0 ∨ target.tsinfo = 0 ∨ newts = target.tsinfo then .killBoth
  else
    let sameuser := sameUser target username host
    if (sameuser ∧ newts < target.tsinfo) ∨ (!sameuser ∧ newts > target.tsinfo) then .keepTarget
    else .keepNew

namespace World

/-! ### Local users -/

/-- `set_initial_nick`; the registration that may follow is a step of its own. -/
def setInitialNick (w : World) (source : Cid) (nick : CStr) : World :=
  (w.onClient source fun x => { x with tsinfo := w.currentTime }).rename source
    (strlcpy nick (HOSTLEN + 1))

/-- `change_local_nick`. -/
def changeLocalNick (cf : ServerConfig) (w : World) (source : Cid) (nick : CStr) : World :=
  let x := w.clients source
  let after := changeLocalNickFields cf.toConfig w.currentTime x nick
  let changes := (after.localClient.map LocalUser.numberOfNickChanges).getD 0
  if nickChangeAllowed cf.toConfig x changes then
    (w.onClient source fun x =>
      { x with localClient := after.localClient, tsinfo := after.tsinfo }).rename source nick
  else w.onClient source fun x => { x with localClient := after.localClient }

/-- `mr_nick`. -/
def mrNick (cf : ServerConfig) (w : World) (source : Cid) (newnick : CStr) : World :=
  let nick := strlcpy (newnick.takeWhile (· ≠ '~')) cf.nicklen
  if !cleanNickName nick true then w
  else if cf.nickResv nick && !(w.clients source).isExemptResv then w
  else
    match w.findClient nick with
    | none => w.setInitialNick source nick
    | some target =>
      if source = target then w.onClient source fun x => { x with name := nick } else w

/-- `m_nick`. -/
def mNick (cf : ServerConfig) (w : World) (source : Cid) (newnick : CStr) : World :=
  let x := w.clients source
  let nick := strlcpy newnick cf.nicklen
  if !cleanNickName nick true then w
  else if cf.nickResv nick && !x.isExemptResv && !(x.isOper && cf.file.operPassResv) then w
  else
    match w.findClient nick with
    | none => w.changeLocalNick cf source nick
    | some target =>
      if target = source then
        if (w.clients target).name = nick then w else w.changeLocalNick cf source nick
      else if (w.clients target).isUnknown then
        (w.exitClient target).changeLocalNick cf source nick
      else w

/-! ### Users of other servers -/

/-- `check_clean_nick`: what it leaves when the nick is erroneous. -/
def checkCleanNick (w : World) (client source : Cid) (nick newnick : CStr) : Option World :=
  if !cleanNickName nick false || nick != newnick then
    some (if source ≠ client then w.killClient source else w)
  else none

/-- A mode letter of an introduction. `nick_from_server` counts it only when the
mode is not set yet, `client_from_server` always. -/
def introUmode (onlyNew : Bool) (c : Cid) (w : World) (m : Char) : World :=
  match userModes m with
  | none => w
  | some flag =>
    let x := w.clients c
    let w := if flag = .invisible ∧ !(onlyNew && x.isInvisible) then
        w.onCount fun n => { n with invisi := n.invisi + 1 }
      else w
    let w := if flag = .oper ∧ !(onlyNew && x.isOper) then
        w.onCount fun n => { n with oper := n.oper + 1 }
      else w
    if flag ∈ SEND_UMODES then w.onClient c fun x => { x with umodes := insert flag x.umodes }
    else w

/-- `nick_from_server`. -/
def nickFromServer (w : World) (client source : Cid) (parv : List CStr) (newts : Int)
    (nick : CStr) : World :=
  let ts := if newts ≠ 0 then newts else w.currentTime
  if (w.clients source).isServer then
    let c := w.next
    let w := w.makeClient client
    let w := w.onClient c fun x => { x with tsinfo := ts, name := nick }
    let w := w.hashAddClient c
    let w := if 8 < parv.length then
        let w := ((param parv 4).drop 1).foldl (introUmode true c) w
        w.registerRemoteUser c (param parv 5) (param parv 6) (param parv 7)
      else w
    w.rename c nick
  else
    let w := if (w.clients source).name ≠ [] ∧ !ircEq (param parv 0) nick then
        w.onClient source fun x => { x with tsinfo := ts }
      else w
    w.rename source nick

/-- `client_from_server`. -/
def clientFromServer (w : World) (client source : Cid) (parv : List CStr) (newts : Int)
    (nick : CStr) : World :=
  let servername := (w.clients source).name
  let c := w.next
  let w := w.makeClient client
  let w := w.onClient c fun x =>
    { x with
      tsinfo := newts, name := nick, id := strlcpy (param parv 8) (IDLEN + 1)
      sockhost := strlcpy (param parv 7) (HOSTIPLEN + 1) }
  let w := w.hashAddClient c
  let w := w.hashAddId c
  let w := ((param parv 4).drop 1).foldl (introUmode false c) w
  w.registerRemoteUser c (param parv 5) (param parv 6) servername

/-- `perform_nick_collides`. -/
def performNickCollides (w : World) (source client target : Cid) (parv : List CStr) (newts : Int)
    (nick : CStr) : World :=
  let x := w.clients source
  if x.isServer then
    match collision newts (w.clients target) (param parv 5) (param parv 6) with
    | .killBoth => w.killClient target
    | .keepTarget => w
    | .keepNew =>
      let w := w.killClient target
      if parv.length = 9 then w.nickFromServer client source parv newts nick
      else if parv.length = 10 then w.clientFromServer client source parv newts nick
      else w
  else
    match collision newts (w.clients target) x.username x.host with
    | .killBoth => (w.killClient target).killClient source
    | .keepTarget => w.killClient source
    | .keepNew => (w.killClient target).nickFromServer client source parv newts nick

/-- The end of `ms_nick`, where the nick has passed its checks. -/
def takeNick (w : World) (client source : Cid) (parv : List CStr) (newts : Int) (nick : CStr) :
    World :=
  match w.findClient nick with
  | none => w.nickFromServer client source parv newts nick
  | some target =>
    if (w.clients target).isUnknown then
      (w.exitClient target).nickFromServer client source parv newts nick
    else if target = source then
      if (w.clients target).name ≠ nick then w.nickFromServer client source parv newts nick else w
    else w.performNickCollides source client target parv newts nick

/-- `ms_nick`. -/
def msNick (cf : ServerConfig) (w : World) (client source : Cid) (parv : List CStr) : World :=
  let nick := strlcpy (param parv 1) cf.nicklen
  let isServer := (w.clients source).isServer
  if parv.length < 2 ∨ param parv 1 = [] then w
  else if parv.length = 9 then
    match w.findServer (param parv 7) with
    | none => w
    | some _ =>
      match w.checkCleanNick client source nick (param parv 1) with
      | some w' => w'
      | none =>
        if USERLEN < (param parv 5).length then w
        else if HOSTLEN < (param parv 6).length then w
        else w.takeNick client source parv (if isServer then strtol (param parv 3) else 0) nick
  else if parv.length = 3 then
    if isServer then w
    else
      match w.checkCleanNick client source nick (param parv 1) with
      | some w' => w'
      | none => w.takeNick client source parv (strtol (param parv 2)) nick
  else w.takeNick client source parv 0 nick

/-- `ms_uid`. -/
def msUid (cf : ServerConfig) (w : World) (client source : Cid) (parv : List CStr) : World :=
  let nick := strlcpy (param parv 1) cf.nicklen
  if param parv 1 = [] then w
  else
    match w.checkCleanNick client source nick (param parv 1) with
    | some w' => w'
    | none =>
      if USERLEN < (param parv 5).length then w
      else if HOSTLEN < (param parv 6).length then w
      else
        let newts := strtol (param parv 3)
        match w.hashFindId (param parv 8) with
        | some target => w.killClient target
        | none =>
          match w.findClient (param parv 1) with
          | none => w.clientFromServer client source parv newts nick
          | some target =>
            if (w.clients target).isUnknown then
              (w.exitClient target).clientFromServer client source parv newts nick
            else w.performNickCollides source client target parv newts nick

end World

end Ircd
