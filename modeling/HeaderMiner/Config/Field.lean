import HeaderMiner.Config.Basic
import HeaderMiner.Text.Json.Basic

/-!
# Configurations as documents

The fields of a configuration document, with their names and the order in which they are written.
-/

namespace HeaderMiner.Config

inductive Field where
  | threads | lanes | resyncBatches | payout | tipPollMs | peerPollMs | submitPeerPolls
  | syncAfterOfflinePolls | syncWindowPolls | templateRetryMs | maxRounds
deriving DecidableEq, Repr

namespace Field

def all : List Field :=
  [threads, lanes, resyncBatches, payout, tipPollMs, peerPollMs, submitPeerPolls,
    syncAfterOfflinePolls, syncWindowPolls, templateRetryMs, maxRounds]

def name : Field → String
  | threads => "threads"
  | lanes => "lanes"
  | resyncBatches => "resync_batches"
  | payout => "payout"
  | tipPollMs => "tip_poll_interval_ms"
  | peerPollMs => "peer_poll_interval_ms"
  | submitPeerPolls => "submit_peer_polls"
  | syncAfterOfflinePolls => "sync_after_offline_polls"
  | syncWindowPolls => "sync_window_polls"
  | templateRetryMs => "template_retry_ms"
  | maxRounds => "max_rounds"

/-- The value of a field; a choice that is left open is `null`. -/
def value (c : Config) : Field → Json
  | threads => Json.ofNat? (c.threads.map (·.toNat))
  | lanes => Json.ofNat? (c.lanes.map (·.count))
  | resyncBatches => .nat c.resyncBatches.toNat
  | payout => .text c.payout
  | tipPollMs => .nat c.tipPollMs.toNat
  | peerPollMs => .nat c.peerPollMs.toNat
  | submitPeerPolls => .nat c.submitPeerPolls.toNat
  | syncAfterOfflinePolls => .nat c.syncAfterOfflinePolls.toNat
  | syncWindowPolls => .nat c.syncWindowPolls.toNat
  | templateRetryMs => .nat c.templateRetryMs.toNat
  | maxRounds => Json.ofNat? (c.maxRounds.map (·.toNat))

end Field

def toJson (c : Config) : Json := .record (Field.all.map fun f => (f.name, f.value c))

end HeaderMiner.Config
