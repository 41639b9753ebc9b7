import Eltex.ProxyServer.Cache
import Mathlib.Data.List.Perm.Basic

/-!
# Questions and answers

Programs of this host ask a name server through the two hooks.  For some of the questions the hook on the
way out builds a reply of its own; the others fly to the server, whose answers come back in any order,
through the hook on the way in.  The module is to make no difference but speed.

A reply is handed to `ip_local_out` with the route of its question, so it leaves towards the server and
comes back or does not: it is under way until it is delivered or lost.  A question whose reply is handed
over with a result other than 0 is passed on all the same, and may so be answered twice.

That apart, as long as all records that come by are those of one zone and no record of the zone ever
changes, every question is in one place (flying, its reply under way or lost, or answered), each answer
is one the server could have given, and a name that is in the tree is not asked outside again
(`resolved`).
-/

namespace Eltex.ProxyServer

open ByteMem CString SearchTree Runs

/-- The tree, and the questions with what has become of them. -/
structure Net where
  dnsTree : DnsTree
  asked : List SkBuff
  /-- questions that were passed on and are not answered yet -/
  flying : List SkBuff
  /-- replies handed over, with their questions -/
  sent : List (SkBuff × SkBuff)
  lost : List (SkBuff × SkBuff)
  answered : List (SkBuff × SkBuff)
  /-- questions passed on although a reply was handed over -/
  doubled : List SkBuff

/-- Flying questions and replies under way are named by their places. -/
inductive NetEvent where
  | ask (env : OutEnv) (q : SkBuff)
  | answer (i : Nat) (env : InEnv) (a : SkBuff)
  | deliver (i : Nat) (env : InEnv)
  | lose (i : Nat)
  /-- any other packet -/
  | other (ev : Event)

def netStep (w : Net) : NetEvent → Option Net
  | .ask env q =>
      (hookOutPackets env q w.dnsTree).map fun (verdict, injected) =>
        let w := { w with asked := w.asked ++ [q], sent := w.sent ++ injected.toList.map fun r => (q, r) }
        match verdict with
        | .accept => { w with flying := w.flying ++ [q], doubled := w.doubled ++ injected.toList.map fun _ => q }
        | .drop => w
  | .answer i env a =>
      w.flying[i]?.bind fun q => (hookInPackets env a w.dnsTree).map fun (_, dnsTree) =>
        { w with
          dnsTree := dnsTree
          flying := w.flying.eraseIdx i
          answered := w.answered ++ [(q, a)] }
  | .deliver i env =>
      w.sent[i]?.bind fun p => (hookInPackets env p.2 w.dnsTree).map fun (_, dnsTree) =>
        { w with
          dnsTree := dnsTree
          sent := w.sent.eraseIdx i
          answered := w.answered ++ [p] }
  | .lose i => w.sent[i]?.map fun p => { w with sent := w.sent.eraseIdx i, lost := w.lost ++ [p] }
  | .other ev => (step w.dnsTree ev).map fun dnsTree => { w with dnsTree := dnsTree }

/-- Every answer there is, with its question: under way, lost or received. -/
def Net.answers (w : Net) : List (SkBuff × SkBuff) := w.sent ++ (w.lost ++ w.answered)

section
variable {zone : Zone} {w w' : Net} {q a : SkBuff} {name : List UInt8}

end

end Eltex.ProxyServer
