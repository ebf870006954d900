import YieldMe.Steps
import YieldMe.Flows
import YieldMe.SignedIn
import YieldMe.Ownership
import YieldMe.Busy
import YieldMe.WorldCoin
import YieldMe.Notices
import YieldMe.Credentials
import YieldMe.HumanProof
import YieldMe.Failures
import YieldMe.Buttons
import YieldMe.Comments
import YieldMe.Balance
import YieldMe.PassCopy
import YieldMe.HexString
import YieldMe.DepositAmount
import YieldMe.CommentIds
import YieldMe.Authentication
import YieldMe.Display
import YieldMe.WalletPolling
import YieldMe.Provenance
import YieldMe.Account
import YieldMe.Traces
import YieldMe.Delivered
import YieldMe.Independence
import YieldMe.UserDefaults
import YieldMe.BigInt.Laws
import YieldMe.BigInt.ShiftOperators
import YieldMe.BigInt.PrimeTest
import YieldMe.BigInt.Random
import YieldMe.BigInt.Radix
import YieldMe.BigInt.DataConversion
import YieldMe.BigInt.WordsAndBits
import YieldMe.BigInt.Storage
