import ChatBackup.Backup.SettingsText
import ChatBackup.Backup.EncryptedReader
import ChatBackup.Proofs.Lifecycle
import ChatBackup.Proofs.Cbc
import ChatBackup.Proofs.Mac
import ChatBackup.Proofs.Compression
import ChatBackup.Proofs.Unpacking
import ChatBackup.Proofs.Decompression
import ChatBackup.Proofs.Lockstep
import ChatBackup.Proofs.Writing
import ChatBackup.Proofs.Agreement
import ChatBackup.Proofs.Reading
import ChatBackup.Proofs.Authentication
import ChatBackup.Proofs.Refinement
import ChatBackup.Proofs.Codec
import ChatBackup.Proofs.RoundTrip
import ChatBackup.Proofs.Sequence
import ChatBackup.Proofs.Truncation
import ChatBackup.Proofs.Logging
import ChatBackup.Proofs.Layout
import ChatBackup.Proofs.Pursuit
import ChatBackup.Proofs.SideBySide
import ChatBackup.Proofs.Faults
import ChatBackup.Proofs.Splitting
import ChatBackup.Proofs.Accounting
import ChatBackup.Proofs.OutputSize
import ChatBackup.Proofs.SinkIndependence
import ChatBackup.Proofs.Arrival
import ChatBackup.Proofs.OneShot
import ChatBackup.Proofs.Partition
import ChatBackup.Proofs.GzipStage
import ChatBackup.Proofs.StreamMac
import ChatBackup.Proofs.FailingSource
import ChatBackup.Proofs.Reconciliation
import ChatBackup.Proofs.EvenDraws
import ChatBackup.Proofs.Overrun
import ChatBackup.Proofs.LostRefills
import ChatBackup.Proofs.Base128
import ChatBackup.Proofs.EncodedLengths
import ChatBackup.Proofs.UnknownFields
import ChatBackup.Proofs.ReaderCounts
import ChatBackup.Proofs.InStep
import ChatBackup.Proofs.SettingsText
