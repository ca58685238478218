import HeaderMiner.Config.Field
import HeaderMiner.Session.Stats

/-!
# Summaries

What the program prints when a session has ended.
-/

namespace HeaderMiner

structure Summary where
  config : Config
  height : UInt64
  tip : BlockHash
  stats : Stats

namespace Summary

def toJson (s : Summary) : Json :=
  .record [
    ("config", s.config.toJson),
    ("height", .nat s.height.toNat),
    ("tip", .text s.tip.display),
    ("stats", s.stats.toJson)]

/-- The printed text, with one member a line. -/
def text (s : Summary) : String := s.toJson.pretty 0

end Summary

end HeaderMiner
