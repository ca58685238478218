import HeaderMiner.Difficulty
import HeaderMiner.Engine.LaneWidth
import HeaderMiner.Failure
import HeaderMiner.Round.Report

/-!
# Notices

Everything that the miner and its node write to the log, each with its level and its wording.
-/

namespace HeaderMiner

inductive Level where
  | warn | info | debug
deriving DecidableEq, Repr

def Level.name : Level → String
  | .warn => "WARN"
  | .info => "INFO"
  | .debug => "DEBUG"

inductive Notice where
  | starting (threads : Nat) (lanes : LaneWidth) (payout : String)
  | shutdownRequested
  | waitingForPeers (polls : Nat)
  | settling (height : UInt64)
  | chainMoved (height : UInt64)
  | templateFailed (failure : NodeFailure) (retryMs : UInt64)
  | sessionFinished (rounds accepted hashes elapsedMs : Nat)
  | roundStarted (prev : BlockHash) (threads : Nat) (lanes : LaneWidth) (bits : UInt32)
  | roundTarget (target : Target)
  | roundEnded (outcome : Outcome) (hashes elapsed : Nat)
  | scanning (worker : Nat) (range : NonceRange)
  | rangeExhausted (worker hashes : Nat)
  | blockFound (worker : Nat) (hash : BlockHash) (nonce : UInt32)
  | tipMoved (tip : BlockHash)
  | awaitingPeers (ms : UInt64)
  | blockDropped (hash : BlockHash)
  | submitFailed (hash : BlockHash) (failure : NodeFailure)
  | blockAccepted (hash : BlockHash) (time : UInt32)
  | blockRejected (hash : BlockHash)
  | externalBlock (tip : BlockHash) (height : UInt64)
  | staleHeader (hash tip : BlockHash)
  | insufficientWork (hash : BlockHash)
deriving DecidableEq

namespace Notice

def level : Notice → Level
  | starting .. | shutdownRequested | waitingForPeers .. | settling .. | chainMoved ..
  | sessionFinished .. | roundStarted .. | roundEnded .. | blockFound .. | blockAccepted .. => .info
  | templateFailed .. | tipMoved .. | awaitingPeers .. | blockDropped .. | submitFailed ..
  | blockRejected .. => .warn
  | roundTarget .. | scanning .. | rangeExhausted .. | externalBlock .. | staleHeader ..
  | insufficientWork .. => .debug

def outcomeName : Outcome → String
  | .solved => "Solved"
  | .exhausted => "Exhausted"
  | .superseded => "Superseded"
  | .interrupted => "Interrupted"

def text : Notice → String
  | starting threads lanes payout =>
    s!"bleminer starting: {threads} threads, {lanes.count} lanes, payout {payout}"
  | shutdownRequested => "shutdown requested, finishing current round"
  | waitingForPeers polls => s!"waiting for peers to connect ({polls})"
  | settling height => s!"waiting for chain to settle at height {height}"
  | chainMoved height => s!"chain moved to height {height}"
  | templateFailed failure retryMs => s!"{failure.message}, retrying in {retryMs} ms"
  | sessionFinished rounds accepted hashes elapsedMs =>
    let rate := HashRate.ofHashes hashes (elapsedMs * nanosPerMilli)
    s!"session finished: {rounds} rounds, {accepted} accepted, {hashes} hashes ({rate.display})"
  | roundStarted prev threads lanes bits =>
    let difficulty := Difficulty.display (Difficulty.ofBits bits)
    s!"mining on {prev} with {threads} threads x {lanes.count} lanes, " ++
      s!"bits {Hex.ofNat 8 bits.toNat}, difficulty {difficulty}"
  | roundTarget target => s!"target {target}"
  | roundEnded outcome hashes elapsed =>
    let rate := HashRate.ofHashes hashes elapsed
    s!"round {outcomeName outcome}: {hashes} hashes in {wholeMillis elapsed} ms ({rate.display})"
  | scanning worker range =>
    s!"worker {worker} scanning nonces 0x{Hex.ofNat 1 range.start}..0x{Hex.ofNat 1 range.stop}"
  | rangeExhausted worker hashes => s!"worker {worker} exhausted its range after {hashes} hashes"
  | blockFound worker hash nonce =>
    s!"worker {worker} found block {hash} (nonce 0x{Hex.ofNat 8 nonce.toNat})"
  | tipMoved tip => s!"chain tip moved to {tip}, abandoning template"
  | awaitingPeers ms => s!"no peers for block submission, retrying for {ms} ms"
  | blockDropped hash => s!"still no peers, dropping block {hash}"
  | submitFailed hash failure => s!"submitting block {hash} failed: {failure.message}"
  | blockAccepted hash time => s!"submitted block {hash} (time {time}) accepted"
  | blockRejected hash => s!"submitted block {hash} rejected"
  | externalBlock tip height => s!"external block {tip} at height {height}"
  | staleHeader hash tip => s!"rejecting {hash}: does not build on tip {tip}"
  | insufficientWork hash => s!"rejecting {hash}: insufficient proof of work"

def line (n : Notice) : String := n.level.name ++ " " ++ n.text

end Notice

end HeaderMiner
