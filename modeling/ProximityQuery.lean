import ProximityQuery.Main
import ProximityQuery.Aggregate.Indexed
import ProximityQuery.Session
import ProximityQuery.Proofs.FieldScope
import ProximityQuery.Proofs.TwoReadings
import ProximityQuery.Proofs.ParseErrors
import ProximityQuery.Proofs.Acceptance
import ProximityQuery.Proofs.Replay
import ProximityQuery.Proofs.Reading
import ProximityQuery.Proofs.Quotation
import ProximityQuery.Proofs.Placeholders
import ProximityQuery.Proofs.Spelling
import ProximityQuery.Proofs.SpelledLevel
import ProximityQuery.Proofs.PhraseOfWords
import ProximityQuery.Proofs.Source
import ProximityQuery.Proofs.Nesting
import ProximityQuery.Proofs.RoundTrip
import ProximityQuery.Proofs.QueueHistory
import ProximityQuery.Proofs.AggregateHistory
import ProximityQuery.Proofs.Signs
import ProximityQuery.Proofs.Continuation
import ProximityQuery.Proofs.ContinuedLevel
import ProximityQuery.Proofs.DanglingOperators
import ProximityQuery.Proofs.Groups
import ProximityQuery.Proofs.PhraseShape
import ProximityQuery.Proofs.HeldPositions
import ProximityQuery.Proofs.NormalForm
import ProximityQuery.Proofs.ExternalQuery
import ProximityQuery.Proofs.EditTable
import ProximityQuery.Proofs.WildcardWidening
import ProximityQuery.Proofs.ExactExpansion
import ProximityQuery.Proofs.ExpansionLimit
import ProximityQuery.Proofs.OrderOfWords
import ProximityQuery.Proofs.OrderOfAdditions
import ProximityQuery.Proofs.RangeTexts
import ProximityQuery.Proofs.WordPatterns
import ProximityQuery.Proofs.CursorGrammar
