import TinkoffChat.PartialRuns
import TinkoffChat.ChangeLog
import TinkoffChat.Documents
import TinkoffChat.LocalStore
import TinkoffChat.FireStoreService
import TinkoffChat.ChannelMirror
import TinkoffChat.MessageMirror
import TinkoffChat.ChannelDeletion
import TinkoffChat.MessageArrivals
import TinkoffChat.Messaging
import TinkoffChat.SendOrder
import TinkoffChat.OperationProfileManager
import TinkoffChat.CallAnswers
import TinkoffChat.SaveReports
import TinkoffChat.ProfileTransfers
import TinkoffChat.ProfileMixtures
import TinkoffChat.ProfileReadback
import TinkoffChat.CoreDataStack
import TinkoffChat.ChannelEchoes
import TinkoffChat.SnapshotListeners
import TinkoffChat.BatchUpdates
import TinkoffChat.FetchedResults
import TinkoffChat.DispatchGroups
import TinkoffChat.ThemeDataStore
import TinkoffChat.GCDProfileManager
import TinkoffChat.FailedSaves
import TinkoffChat.ProfileDefaults
import TinkoffChat.ProfileViewController
import TinkoffChat.ScreenSaves
import TinkoffChat.ProfileCopies
import TinkoffChat.SnapshotPhases
import TinkoffChat.UpdatedRows
import TinkoffChat.GroupOutcomes
import TinkoffChat.GroupedSaves
import TinkoffChat.OverlappingSaves
import TinkoffChat.AvatarService
import TinkoffChat.ChangeDetection
import TinkoffChat.ImagePicker
import TinkoffChat.AvatarRetries
import TinkoffChat.ChannelSync
import TinkoffChat.ProfileProgress
import TinkoffChat.CancelledQueue
import TinkoffChat.GCDUserDataStore
import TinkoffChat.GCDReads
import TinkoffChat.ScreenModes
import TinkoffChat.StoreRelaunches
import TinkoffChat.ConversationScreen
import TinkoffChat.SenderIds
import TinkoffChat.ChannelRelaunches
import TinkoffChat.ConversationList
import TinkoffChat.ImageFetches
import TinkoffChat.MessageHistory
import TinkoffChat.TableRuns
import TinkoffChat.ThemeLaunches
