import LensoSecrets.EarlyExit
import LensoSecrets.QueryPrograms
import LensoSecrets.ProgramPaths
import LensoSecrets.CooperativeCalls
import LensoSecrets.OrderedMaps
import LensoSecrets.ByteReaders
import LensoSecrets.StandardLibrary
import LensoSecrets.CapabilityContract
import LensoSecrets.ReferenceSyntax
import LensoSecrets.ProviderContract
import LensoSecrets.EnvironmentProvider
import LensoSecrets.KeychainProvider
import LensoSecrets.EncryptedFileProvider
import LensoSecrets.EncryptedFileLoads
import LensoSecrets.DocumentRecords
import LensoSecrets.ResolverPipes
import LensoSecrets.ResolverProcess
import LensoSecrets.ResolverOutput
import LensoSecrets.CommandProvider
import LensoSecrets.CommandReplies
import LensoSecrets.ProviderReplies
import LensoSecrets.ProviderPreparation
import LensoSecrets.ReferenceAgreement
import LensoSecrets.CommandStages
import LensoSecrets.ExecutablePinning
import LensoSecrets.PreparationLifecycle
import LensoSecrets.SeparatedLists
import LensoSecrets.ReferenceGrammar
import LensoSecrets.ReferenceMaps
import LensoSecrets.EnvironmentPlans
import LensoSecrets.EnvironmentRefusals
import LensoSecrets.ReaderAgreement
import LensoSecrets.ResolverWaits
import LensoSecrets.ResolverRequests
import LensoSecrets.CallJobs
import LensoSecrets.CallProgress
import LensoSecrets.LiveServices
import LensoSecrets.ResolverRuns
import LensoSecrets.DrainedPipes
import LensoSecrets.ResolverThreads
import LensoSecrets.ResolverProgress
import LensoSecrets.LiveResolvers
import LensoSecrets.DomainErrors
import LensoSecrets.SealedDocuments
