import NostrMultiPlatform.CoverageHonesty
import NostrMultiPlatform.FeedBounds
import NostrMultiPlatform.FeedLedger
import NostrMultiPlatform.FeedPaging
import NostrMultiPlatform.FeedReplay
import NostrMultiPlatform.NegentropySurface
import NostrMultiPlatform.Nip46Finality
import NostrMultiPlatform.Nip60Rebuild
import NostrMultiPlatform.PlannerAttribution
import NostrMultiPlatform.PlannerHashing
import NostrMultiPlatform.PlannerSubIds
import NostrMultiPlatform.PlannerUnroutable
import NostrMultiPlatform.PoolSafety
import NostrMultiPlatform.ProjectionMirror
import NostrMultiPlatform.ProvenanceLists
import NostrMultiPlatform.PublishAcceptance
import NostrMultiPlatform.PublishFiles
import NostrMultiPlatform.PublishRetries
import NostrMultiPlatform.PublishWakes
import NostrMultiPlatform.RefLookup
import NostrMultiPlatform.RefPatience
import NostrMultiPlatform.RefRowFeed
import NostrMultiPlatform.RefRowMixing
import NostrMultiPlatform.RelayPreamble
import NostrMultiPlatform.RelaySessions
import NostrMultiPlatform.ServeWindow
import NostrMultiPlatform.StoreArithmetic
import NostrMultiPlatform.StoreCoordinate
import NostrMultiPlatform.StoreCoverage
import NostrMultiPlatform.StoreGaps
import NostrMultiPlatform.StoreRetention
import NostrMultiPlatform.StoreTokens
import NostrMultiPlatform.SubsReading
import NostrMultiPlatform.SubsReconnect
import NostrMultiPlatform.SubsRegistry
import NostrMultiPlatform.SubsServed
import NostrMultiPlatform.SubsSession
import NostrMultiPlatform.SubsWidening
import NostrMultiPlatform.ThreadReposts
import NostrMultiPlatform.WalletAmounts
import NostrMultiPlatform.WalletAnswers
import NostrMultiPlatform.WalletAwait
import NostrMultiPlatform.WalletBalances
import NostrMultiPlatform.WalletConfluence
import NostrMultiPlatform.WalletCustody
import NostrMultiPlatform.WalletIsolation
import NostrMultiPlatform.WalletMelt
import NostrMultiPlatform.WalletMintIdentity
import NostrMultiPlatform.WalletOutputs
import NostrMultiPlatform.WalletRedeemOnce
