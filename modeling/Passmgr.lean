import Passmgr.Push
import Passmgr.CutLog
import Passmgr.PushPlan
import Passmgr.PushWrite
import Passmgr.PushSpec
import Passmgr.PushStore
import Passmgr.PushAtomic
import Passmgr.PushRetry
import Passmgr.PushMove
import Passmgr.ReadCommitted
import Passmgr.VaultOps
import Passmgr.VaultRely
import Passmgr.AccountDeletion
import Passmgr.LiveVaults
import Passmgr.LocalTables
import Passmgr.LocalWrites
import Passmgr.LocalSync
import Passmgr.PullLoop
import Passmgr.LocalViews
import Passmgr.OutboxOps
import Passmgr.OutboxRebase
import Passmgr.Expiring
import Passmgr.JsNumber
import Passmgr.RequestAuth
import Passmgr.VaultLoss
import Passmgr.CipherSlots
import Passmgr.IdealCipher
import Passmgr.VaultCrypto
import Passmgr.SecretsStore
import Passmgr.SharingTasks
import Passmgr.KeyUpdateAuth
import Passmgr.CipherOrigins
import Passmgr.VaultEffects
import Passmgr.AccountEffects
import Passmgr.VaultCreation
import Passmgr.VaultSteps
import Passmgr.VaultRefinement
import Passmgr.VaultKeys
import Passmgr.HandedKeys
import Passmgr.KeyHolders
import Passmgr.KeyChain
import Passmgr.KeyHistory
import Passmgr.Ledger
import Passmgr.StorageQuota
import Passmgr.Interleaving
import Passmgr.LoginKeys
import Passmgr.LoginCalls
import Passmgr.SessionRevocation
import Passmgr.LoginThrottle
import Passmgr.SecondFactor
import Passmgr.KeySets
import Passmgr.OnePassword
import Passmgr.RecordPayload
import Passmgr.RevokedCopies
import Passmgr.ExportFile
import Passmgr.ImportExport
import Passmgr.SameContent
import Passmgr.Backup
import Passmgr.AccountKeys
import Passmgr.PendingRecovery
import Passmgr.RecoveryConverges
import Passmgr.PushBatches
import Passmgr.PushOutbox
import Passmgr.PushIsolation
import Passmgr.ProfileStore
import Passmgr.MergeRecord
import Passmgr.MergeLaws
import Passmgr.RecordSchema
import Passmgr.ResolveConflict
import Passmgr.MergeClosure
import Passmgr.RebaseKeeps
import Passmgr.PendingRekey
import Passmgr.RekeyKeeps
import Passmgr.SyncManager
import Passmgr.SyncScheduling
import Passmgr.SyncRounds
import Passmgr.Escaping
import Passmgr.WifiQr
import Passmgr.CsvExport
import Passmgr.AesKdf
import Passmgr.Deferred
import Passmgr.Migrations
import Passmgr.MigrateOnce
import Passmgr.KeyLoading
import Passmgr.RecoverAccount
import Passmgr.FourBytes
import Passmgr.Sampling
import Passmgr.RandomDraws
import Passmgr.PasswordGenerator
import Passmgr.Base64
import Passmgr.Utf16
import Passmgr.SshKey
import Passmgr.ImportHeads
import Passmgr.ImportPlan
import Passmgr.ImportOneByOne
import Passmgr.DerivedUpdates
import Passmgr.DerivedKeep
import Passmgr.Separators
import Passmgr.FieldSpecs
import Passmgr.DiffFields
import Passmgr.UnionFind
import Passmgr.Websites
import Passmgr.PassMonitor
import Passmgr.PreviousSecrets
import Passmgr.KdbxReader
import Passmgr.Fallible
import Passmgr.KdbxBlocks
import Passmgr.Replacing
import Passmgr.Keystream
import Passmgr.KdbxXml
import Passmgr.KdbxDocument
import Passmgr.XmlAttributes
import Passmgr.PendingLogins
import Passmgr.AutofillImport
import Passmgr.TimeWindows
import Passmgr.EmailCodes
import Passmgr.EmailSends
import Passmgr.EmailCodeSafety
import Passmgr.DeviceCredentials
import Passmgr.LinkedCredentials
import Passmgr.RoseTree
import Passmgr.AutofillRequest
import Passmgr.AutofillSites
import Passmgr.ForeignImport
import Passmgr.KeptValues
import Passmgr.KeePassImport
import Passmgr.BitwardenImport
import Passmgr.ImportLosses
import Passmgr.VaultRuns
import Passmgr.Fleet
import Passmgr.LocalRows
import Passmgr.PushAnswers
import Passmgr.PendingChains
import Passmgr.FleetOutbox
import Passmgr.FleetInvariant
import Passmgr.FleetRuns
import Passmgr.FleetConverges
