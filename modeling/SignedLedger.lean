import SignedLedger.Bytes
import SignedLedger.Identifier
import SignedLedger.Field.Tag
import SignedLedger.Field
import SignedLedger.Field.Scan
import SignedLedger.Field.Machine
import SignedLedger.Crypto.LittleEndian
import SignedLedger.Crypto.Blake3
import SignedLedger.Crypto.Sha512
import SignedLedger.Crypto.Curve25519
import SignedLedger.Crypto.Ed25519
import SignedLedger.Crypto.X25519
import SignedLedger.Crypto.ChaCha20
import SignedLedger.Crypto.Poly1305
import SignedLedger.Crypto.Sealed
import SignedLedger.Suite
import SignedLedger.Suite.Standard
import SignedLedger.Suite.Checksum
import SignedLedger.Certificate.Error
import SignedLedger.Certificate
import SignedLedger.Certificate.Builder
import SignedLedger.FiniteMap
import SignedLedger.Trust.Error
import SignedLedger.Transaction
import SignedLedger.Trust.Resolver
import SignedLedger.Trust.Contract
import SignedLedger.Trust.Attestation
import SignedLedger.Json
import SignedLedger.Fixture
import SignedLedger.Store.KeyMap
import SignedLedger.Store.Table
import SignedLedger.Store.Overlay
import SignedLedger.Store.Error
import SignedLedger.Store.Engine
import SignedLedger.Store.Schema
import SignedLedger.Store.Record
import SignedLedger.Store.Index
import SignedLedger.Store.BlockSigner
import SignedLedger.Store.Append
import SignedLedger.Store
import SignedLedger.Ledger
import SignedLedger.Proofs.Outcome
import SignedLedger.Proofs.FieldSequence
import SignedLedger.Proofs.VisiblePart
import SignedLedger.Proofs.RecordCodec
import SignedLedger.Proofs.SignedCertificate
import SignedLedger.Proofs.BlockCertificate
import SignedLedger.Proofs.TransactionLog
import SignedLedger.Proofs.TransactionBatch
import SignedLedger.Proofs.TransactionIndex
import SignedLedger.Proofs.StoreRun
import SignedLedger.Proofs.DoubleSpend
import SignedLedger.Proofs.BlockHistory
import SignedLedger.Proofs.StoredHistory
import SignedLedger.Proofs.BlockChain
import SignedLedger.Proofs.HashChain
import SignedLedger.Proofs.Replay
import SignedLedger.Proofs.Journal
import SignedLedger.Proofs.ArtifactChain
import SignedLedger.Proofs.AttestationChecks
import SignedLedger.Proofs.FieldReading
import SignedLedger.Proofs.AppendOutcome
import SignedLedger.Proofs.TrustedCertificate
import SignedLedger.Proofs.Acceptance
import SignedLedger.Proofs.LedgerRun
import SignedLedger.Proofs.Discards
import SignedLedger.Proofs.PendingQueue
import SignedLedger.Proofs.QueueCommit
import SignedLedger.Proofs.Provenance
import SignedLedger.Proofs.FieldCodec
import SignedLedger.Proofs.BatchVerdict
import SignedLedger.Proofs.Bookkeeping
import SignedLedger.Proofs.Conservation
import SignedLedger.Proofs.TamperEvidence
import SignedLedger.Proofs.UnsignedTrailer
import SignedLedger.Proofs.StagedWrites
import SignedLedger.Proofs.EngineScript
import SignedLedger.Proofs.AppendScript
import SignedLedger.Proofs.FailedCall
import SignedLedger.Proofs.AppendOnly
import SignedLedger.Proofs.PendingState
import SignedLedger.Proofs.DraftedTransaction
import SignedLedger.Proofs.AlteredValues
import SignedLedger.Proofs.ShownQueue
import SignedLedger.Proofs.TrailedSubmission
import SignedLedger.Proofs.BlockRenaming
import SignedLedger.Proofs.SplitBatch
import SignedLedger.Proofs.IndependentTransactions
import SignedLedger.Proofs.AttestationFaults
import SignedLedger.Proofs.ChainFailure
import SignedLedger.Proofs.LaterAttestation
import SignedLedger.Proofs.TableContents
import SignedLedger.Proofs.ImmediateWrites
import SignedLedger.Proofs.HeightOrder
import SignedLedger.Proofs.RecordCursor
import SignedLedger.Proofs.CanonicalRecord
import SignedLedger.Proofs.BlockedQueue
import SignedLedger.Proofs.SigningOutcome
import SignedLedger.Proofs.FieldMachine
import SignedLedger.Proofs.FieldIteration
import SignedLedger.Proofs.FieldLookup
