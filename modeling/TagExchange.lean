import TagExchange.Address.Lemmas
import TagExchange.Config.Record
import TagExchange.Exchange
import TagExchange.Pipe
import TagExchange.Proofs.RoundTrip.Items
import TagExchange.Proofs.RoundTrip.Networks
import TagExchange.Proofs.RoundTrip.Attributes
import TagExchange.Proofs.RoundTrip.Mappings
import TagExchange.Proofs.RoundTrip.Messages
import TagExchange.Proofs.RoundTrip.Sizes
import TagExchange.Proofs.RoundTrip.Spellings
import TagExchange.Proofs.RoundTrip.Respelling
import TagExchange.Proofs.RoundTrip.Grammar
import TagExchange.Proofs.RoundTrip.Layouts
import TagExchange.Proofs.RoundTrip.Streams
import TagExchange.Proofs.RoundTrip.Delimiting
import TagExchange.Proofs.Address.Turns
import TagExchange.Proofs.Address.Texts
import TagExchange.Proofs.Network.Addresses
import TagExchange.Proofs.Network.Counting
import TagExchange.Proofs.Network.Texts
import TagExchange.Proofs.Database.Tables
import TagExchange.Proofs.Database.BestPath
import TagExchange.Proofs.Database.InPlace
import TagExchange.Proofs.Database.Mirror
import TagExchange.Proofs.Database.Operations
import TagExchange.Proofs.Database.Batches
import TagExchange.Proofs.Database.Loading
import TagExchange.Proofs.Database.Interleaving
import TagExchange.Proofs.Database.Changes
import TagExchange.Proofs.Database.Deletions
import TagExchange.Proofs.Database.RemovalLog
import TagExchange.Proofs.Database.Aliases
import TagExchange.Proofs.Store.Keys
import TagExchange.Proofs.Store.KeyOrder
import TagExchange.Proofs.Store.Trees
import TagExchange.Proofs.Session.Lines
import TagExchange.Proofs.Session.Steps
import TagExchange.Proofs.Session.Exports
import TagExchange.Proofs.Session.Hearing
import TagExchange.Proofs.Session.Openings
import TagExchange.Proofs.Session.Utterances
import TagExchange.Proofs.Session.Forgetting
import TagExchange.Proofs.Session.Attribution
import TagExchange.Proofs.Session.Twins
import TagExchange.Proofs.Session.Reviving
import TagExchange.Proofs.Session.Refusals
import TagExchange.Proofs.Exchange.Updates
import TagExchange.Proofs.Exchange.Frames
import TagExchange.Proofs.Exchange.Learning
import TagExchange.Proofs.Exchange.History
import TagExchange.Proofs.Exchange.Feed
import TagExchange.Proofs.Exchange.Delivery
import TagExchange.Proofs.Exchange.Convergence
import TagExchange.Proofs.Exchange.Copy
import TagExchange.Proofs.Exchange.Hosts
import TagExchange.Proofs.Exchange.Attempts
import TagExchange.Proofs.Exchange.Division
import TagExchange.Proofs.Exchange.UpdateSizes
import TagExchange.Proofs.Exchange.Relaying
import TagExchange.Proofs.Exchange.LegacySizes
import TagExchange.Proofs.Composition.Runs
import TagExchange.Proofs.Composition.Frames
import TagExchange.Proofs.Composition.Records
import TagExchange.Proofs.Mesh.Loops
import TagExchange.Proofs.Hub.Offers
import TagExchange.Proofs.Hub.Neighbours
import TagExchange.Proofs.Handshake.Joining
import TagExchange.Proofs.Handshake.Ends
import TagExchange.Proofs.Handshake.Moves
import TagExchange.Proofs.Handshake.Safety
import TagExchange.Proofs.Handshake.HoldTimes
import TagExchange.Proofs.Handshake.Reuse
import TagExchange.Proofs.Handshake.Declining
