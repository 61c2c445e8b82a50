import TuneRelay.Audit
import TuneRelay.Blob
import TuneRelay.Cli.Arguments
import TuneRelay.Cli.Files
import TuneRelay.Cli.Program
import TuneRelay.Config
import TuneRelay.Engine
import TuneRelay.Main
import TuneRelay.Mml
import TuneRelay.Numeric
import TuneRelay.Proofs.Audit.Ledger
import TuneRelay.Proofs.Blob.Bijection
import TuneRelay.Proofs.Blob.Faults
import TuneRelay.Proofs.Blob.Layout
import TuneRelay.Proofs.Cli.AllOrNothing
import TuneRelay.Proofs.Cli.Plans
import TuneRelay.Proofs.Cli.ReadableBytes
import TuneRelay.Proofs.Cli.Stores
import TuneRelay.Proofs.Config.RoundTrip
import TuneRelay.Proofs.Engine.LengthLimit
import TuneRelay.Proofs.Engine.Lifecycle
import TuneRelay.Proofs.Engine.NoteLength
import TuneRelay.Proofs.Engine.Playback
import TuneRelay.Proofs.Engine.Slots
import TuneRelay.Proofs.Mml.Barriers
import TuneRelay.Proofs.Mml.CleanTexts
import TuneRelay.Proofs.Mml.CommentErasure
import TuneRelay.Proofs.Mml.Deletion
import TuneRelay.Proofs.Mml.Diagnostics
import TuneRelay.Proofs.Mml.Erasure
import TuneRelay.Proofs.Mml.Outcome
import TuneRelay.Proofs.Mml.Rounds
import TuneRelay.Proofs.Mml.Stack
import TuneRelay.Proofs.Mml.Tempo
import TuneRelay.Proofs.Numeric.Double
import TuneRelay.Proofs.Numeric.Order
import TuneRelay.Proofs.Numeric.Rounding
import TuneRelay.Proofs.Numeric.Shortest
import TuneRelay.Proofs.Relay.Delivery
import TuneRelay.Proofs.Relay.Interleaved
import TuneRelay.Proofs.Relay.Publications
import TuneRelay.Proofs.Relay.Publishing
import TuneRelay.Proofs.Relay.Recycling
import TuneRelay.Proofs.Relay.Session
import TuneRelay.Proofs.Render.FactWords
import TuneRelay.Proofs.Render.InPlace
import TuneRelay.Proofs.Render.Offline
import TuneRelay.Proofs.Render.Positions
import TuneRelay.Proofs.Render.Signal
import TuneRelay.Proofs.Render.Stream
import TuneRelay.Proofs.Results
import TuneRelay.Proofs.Sample.Bits
import TuneRelay.Proofs.Text.Utf8
import TuneRelay.Proofs.Toml.Sections
import TuneRelay.Proofs.Toml.Values
import TuneRelay.Relay
import TuneRelay.Render
import TuneRelay.Sample
import TuneRelay.Text
import TuneRelay.Toml.Document
import TuneRelay.Toml.Notation
