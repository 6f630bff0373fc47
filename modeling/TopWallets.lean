import TopWallets.Lib.BitField
import TopWallets.Lib.Cell
import TopWallets.Lib.Hashmap
import TopWallets.Lib.Decimal
import TopWallets.Lib.Utf8
import TopWallets.BigInteger
import TopWallets.Exceptions
import TopWallets.Vm
import TopWallets.Address
import TopWallets.CellBuilder
import TopWallets.Dict
import TopWallets.SerializeDict
import TopWallets.SerializeDictRoundtrip
import TopWallets.SnakeText
import TopWallets.JettonMetadata
import TopWallets.Lib.Runs
import TopWallets.Lib.Segment
import TopWallets.Transactions
import TopWallets.WalletTransactions
import TopWallets.TransactionGaps
import TopWallets.TransactionCallers
import TopWallets.Crypto
import TopWallets.KeyExport
import TopWallets.Nacl
import TopWallets.TonConnect
import TopWallets.TonConnectRequest
import TopWallets.TonMultiSendForm
import TopWallets.FirstSend
import TopWallets.WaitTransactions
import TopWallets.Lib.HashmapTree
import TopWallets.CellDictionary
import TopWallets.Dictionary
import TopWallets.DictionaryRuns
import TopWallets.NativeDictionary
import TopWallets.SerializeDictReference
import TopWallets.Lib.VarUInteger
import TopWallets.Coins
import TopWallets.NftMint
import TopWallets.JettonMessages
import TopWallets.TransactionStream
import TopWallets.Passcode
import TopWallets.NaclFraming
import TopWallets.Lib.Bytes
import TopWallets.TonProof
import TopWallets.TransactionAmount
import TopWallets.SnakeString
import TopWallets.LiteClientHead
import TopWallets.TransactionReaders
import TopWallets.Lib.Paging
import TopWallets.HttpPaging
import TopWallets.TransactionFetch
import TopWallets.JettonCurrency
import TopWallets.Lib.SignedDigits
import TopWallets.BigIntDigits
import TopWallets.CalcFeeGas
import TopWallets.LoadAddress
import TopWallets.OutActions
import TopWallets.CalcFeeForward
import TopWallets.AccountState
import TopWallets.MessageRaw
import TopWallets.CreateWallet
import TopWallets.NftsPanel
import TopWallets.Lib.Sections
import TopWallets.TransactionPanel
import TopWallets.SimpleEncryption
import TopWallets.EncryptData
import TopWallets.PrivateKey
import TopWallets.KeyEncryption
import TopWallets.KeyQueries
import TopWallets.SupportMessage
import TopWallets.TopSupports
import TopWallets.InvoiceUrl
import TopWallets.TransactionsChartData
import TopWallets.Lib.DagTable
import TopWallets.Lib.Faults
import TopWallets.BagOfCells
import TopWallets.BagOfCellsImport
import TopWallets.OrdinaryCells
import TopWallets.BagOfCellsOrder
import TopWallets.BagOfCellsReader
import TopWallets.BagOfCellsCells
import TopWallets.BagOfCellsBytes
import TopWallets.BagOfCellsRoundtrip
import TopWallets.BagOfCellsSafety
import TopWallets.TlStrings
import TopWallets.KeyStorage
