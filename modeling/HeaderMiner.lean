import HeaderMiner.BlockHash
import HeaderMiner.Bytes
import HeaderMiner.CommandLine.Arguments
import HeaderMiner.CommandLine.Launch
import HeaderMiner.CommandLine.Reader
import HeaderMiner.CommandLine.Value
import HeaderMiner.Config.Basic
import HeaderMiner.Config.Field
import HeaderMiner.Config.Reader
import HeaderMiner.Decimal.Binary64
import HeaderMiner.Decimal.Fixed
import HeaderMiner.Decimal.Shortest
import HeaderMiner.Difficulty
import HeaderMiner.Engine.Basic
import HeaderMiner.Engine.LaneWidth
import HeaderMiner.Engine.SecondBlock
import HeaderMiner.Failure
import HeaderMiner.HashRate
import HeaderMiner.Header.Basic
import HeaderMiner.Main
import HeaderMiner.Node.Basic
import HeaderMiner.Node.Local
import HeaderMiner.Node.Scripted
import HeaderMiner.NonceRange
import HeaderMiner.Notice
import HeaderMiner.Round.Basic
import HeaderMiner.Round.Board
import HeaderMiner.Round.Filter
import HeaderMiner.Round.Report
import HeaderMiner.Round.Submission
import HeaderMiner.Round.Worker
import HeaderMiner.Session.Basic
import HeaderMiner.Session.Stats
import HeaderMiner.Session.Summary
import HeaderMiner.Session.Template
import HeaderMiner.Session.Waiting
import HeaderMiner.Sha256.Basic
import HeaderMiner.Sha256.Lanes
import HeaderMiner.Target
import HeaderMiner.Text.Hex
import HeaderMiner.Text.Json.Basic
import HeaderMiner.Text.Json.Scanner
import HeaderMiner.Text.Numeral
import HeaderMiner.Text.QuotedByte
import HeaderMiner.World
import HeaderMiner.Proofs.Bytes
import HeaderMiner.Proofs.Sha256.Lanes
import HeaderMiner.Proofs.Sha256.Standard
import HeaderMiner.Proofs.Sha256.Padding
import HeaderMiner.Proofs.Engine.SecondBlock
import HeaderMiner.Proofs.Engine.DoubleHash
import HeaderMiner.Proofs.Journal
import HeaderMiner.Proofs.Round.Action
import HeaderMiner.Proofs.Round.Search
import HeaderMiner.Proofs.Round.Stage
import HeaderMiner.Proofs.Round.Batch
import HeaderMiner.Proofs.Round.Solutions
import HeaderMiner.Proofs.Round.Contest
import HeaderMiner.Proofs.Round.Outcome
import HeaderMiner.Proofs.Round.Operations
import HeaderMiner.Proofs.Target.Order
import HeaderMiner.Proofs.Round.Filter
import HeaderMiner.Proofs.Round.Solo
import HeaderMiner.Proofs.Round.Scan
import HeaderMiner.Proofs.Round.Course
import HeaderMiner.Proofs.NonceRange
import HeaderMiner.Proofs.Round.Coverage
import HeaderMiner.Proofs.Round.Exit
import HeaderMiner.Proofs.Round.Reasons
import HeaderMiner.Proofs.Round.Interrupt
import HeaderMiner.Proofs.Round.Handover
import HeaderMiner.Proofs.Round.Cancellation
import HeaderMiner.Proofs.Round.Lead
import HeaderMiner.Proofs.Round.Requests
import HeaderMiner.Proofs.Node.Local
import HeaderMiner.Proofs.Header.Serialization
import HeaderMiner.Proofs.Header.Updates
import HeaderMiner.Proofs.Round.Local
import HeaderMiner.Proofs.Session.Course
import HeaderMiner.Proofs.Session.Settling
import HeaderMiner.Proofs.Session.Stage
import HeaderMiner.Proofs.Session.Requests
import HeaderMiner.Proofs.Session.Accounting
import HeaderMiner.Proofs.Session.Local
import HeaderMiner.Proofs.Node.Operations
import HeaderMiner.Proofs.Target.Compact
import HeaderMiner.Proofs.Target.ProofOfWork
import HeaderMiner.Proofs.Text.Scanner
import HeaderMiner.Proofs.Config.Document
import HeaderMiner.Proofs.Session.Marks
import HeaderMiner.Proofs.Session.Protocol
import HeaderMiner.Proofs.Session.Outage
import HeaderMiner.Proofs.Text.Hex
import HeaderMiner.Proofs.BlockHash
import HeaderMiner.Proofs.Text.Numeral
import HeaderMiner.Proofs.CommandLine.Value
import HeaderMiner.Proofs.Node.Templates
